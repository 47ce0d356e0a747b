import Lupin.Alloc.Steps

/-!
# What the allocator records

Each operation as the log it writes. Recording reads pages, queues and the tree and
stores to the log only, so its entries are those of the memory it started from.
-/

namespace Lupin.Alloc

open Lupin.Memory Lupin.HeapIndex Lupin.Buddy Lupin.Log Lupin.LinkedList

/-! ## Stores to the log -/

/-- The memories differ in the log at most. -/
def OffLog (log : Nat) (m m' : Mem) : Prop :=
  ∀ a, a < log ∨ entryAddr log redologEntries ≤ a → m' a = m a

section Setters

variable {log pos : Nat} {m m' m'' : Mem} {entries : List LogEntry} {β : Type}

theorem OffLog.refl (log : Nat) (m : Mem) : OffLog log m m := fun _ _ => rfl

theorem OffLog.trans (first : OffLog log m m') (second : OffLog log m' m'') : OffLog log m m'' :=
  fun a outside => (second a outside).trans (first a outside)

theorem offLog_apply {stores : List Store}
    (within : ∀ t ∈ stores, t.Within log (entryAddr log redologEntries)) (m : Mem) :
    OffLog log m (m.apply stores) := fun _ outside =>
  Mem.apply_of_not_covers (fun t member => (within t member).not_covers outside) m

theorem setAll_append (log pos : Nat) (first second : List LogEntry) :
    setAll log pos (first ++ second) = (do
      let pos ← setAll log pos first
      setAll log pos second) := by
  induction first generalizing pos with
  | nil => rw [List.nil_append, setAll, pure_bind]
  | cons entry rest inductionHypothesis =>
      simp only [List.cons_append, setAll, bind_assoc, inductionHypothesis]

/-- What follows recorded entries may be replaced by what is the same where only the log has
changed. -/
theorem setAll_bind_congr (recordable : ∀ entry ∈ entries, entry.Recordable)
    (room : pos + entries.length ≤ redologEntries) {f g : Nat → Shm β}
    (same : ∀ m', OffLog log m m' → f (pos + entries.length) m' = g (pos + entries.length) m') :
    (setAll log pos entries >>= f) m = (setAll log pos entries >>= g) m := by
  refine Shm.bind_congr fun stores pos' returns => ?_
  obtain ⟨_, recorded, within, _⟩ := @setAll_logged log pos entries recordable room m
  obtain ⟨rfl, rfl⟩ := returns.unique recorded
  exact same _ (offLog_apply (fun t member =>
    (within t member).mono (Nat.le_add_right _ _) le_rfl) m)

end Setters

/-! ## The slot of a header -/

theorem CString.cString_bytes (progId : CString) : cString progId.bytes = progId.bytes := by
  unfold cString CString.bytes
  rw [List.takeWhile_append_of_pos (by simpa using progId.nonzero)]
  simp

section Slot

variable {m m' : Mem} {p : Nat}

/-- A page with free slots has a clear bit, and the loop finds one. -/
theorem firstClearSlot_spec
    (counted : m.read 2 (availableSlotsAddr p) + countBits m (objAllocBitset p) 0 numObjSlots =
      numObjSlots)
    (available : 0 < m.read 2 (availableSlotsAddr p)) :
    firstClearSlot m p < numObjSlots ∧ bit m (objAllocBitset p) (firstClearSlot m p) = false := by
  unfold firstClearSlot
  cases found : (List.range numObjSlots).find? fun i => !bitsetTest m (objAllocBitset p) i with
  | none =>
      have full : countBits m (objAllocBitset p) 0 numObjSlots = numObjSlots := by
        refine countBits_of_all_set fun j below => ?_
        have := List.find?_eq_none.mp found j (List.mem_range.mpr below)
        rw [bitsetTest_eq] at this
        simpa using this
      omega
  | some slot =>
      have clear := List.find?_some found
      rw [bitsetTest_eq] at clear
      exact ⟨List.mem_range.mp (List.mem_of_find?_eq_some found), by simpa using clear⟩

theorem firstClearSlot_congr (same : ∀ a, p ≤ a → a < p + sizeofRecords → m' a = m a) :
    firstClearSlot m' p = firstClearSlot m p := by
  unfold firstClearSlot
  rw [← List.head?_filter, ← List.head?_filter]
  congr 2
  refine List.filter_congr fun i inRange => ?_
  have below := List.mem_range.mp inRange
  unfold numObjSlots at below
  rw [bitsetTest_eq, bitsetTest_eq, bit, bit, same]
  · unfold objAllocBitset
    omega
  · unfold objAllocBitset sizeofRecords
    omega

/-- The header and the entry of an allocation in a page with free slots. -/
def slotEntry (m : Mem) (p machineId objPtr length : Nat) (progId : CString) : LogEntry :=
  .objHdrAlloc p objPtr length (firstClearSlot m p) (m.read 2 (availableSlotsAddr p) - 1)
    progId.bytes machineId

theorem recordObjHdrAlloc_slot {s : MetaShmem} {d : MetaDram} (isCur : d.curObjRecs = some p)
    (available : 0 < m.read 2 (availableSlotsAddr p)) (redologPos objPtr length : Nat)
    (progId : CString) :
    recordObjHdrAlloc s d redologPos objPtr length progId m =
      (do
        let redologPos ←
          setAll s.redolog redologPos [slotEntry m p d.machineId objPtr length progId]
        pure (some (objHeader p (firstClearSlot m p)), redologPos)
        : Shm (Option Nat × Nat)) m := by
  simp only [recordObjHdrAlloc, isCur]
  rw [(Shm.Returns.get m).bind_eq, if_pos available]
  simp only [setAll, LogEntry.set, slotEntry, bind_assoc, pure_bind]

theorem slotEntry_recordable {machineId objPtr length : Nat} {progId : CString}
    (counted : m.read 2 (availableSlotsAddr p) + countBits m (objAllocBitset p) 0 numObjSlots =
      numObjSlots)
    (available : 0 < m.read 2 (availableSlotsAddr p)) (pageFits : p < 2 ^ 64)
    (objFits : objPtr < 2 ^ 64) (lengthFits : length < 2 ^ 64) (machineFits : machineId < 2 ^ 16)
    (short : progId.chars.length ≤ progIdSize + 1) :
    (slotEntry m p machineId objPtr length progId).Recordable := by
  have slot := (firstClearSlot_spec counted available).1
  have few := Mem.read_lt m 2 (availableSlotsAddr p)
  unfold numObjSlots at slot
  refine ⟨⟨by omega, by omega, by omega, by omega, by omega, ?_, by omega⟩, ?_⟩
  · rw [CString.bytes, List.length_append, List.length_singleton]
    omega
  · intro _ _ _ _ _ _ _ same
    obtain ⟨-, -, -, -, -, rfl, -⟩ := LogEntry.objHdrAlloc.inj same
    exact progId.cString_bytes

/-- A header that knows its slot leads to its page. -/
theorem getObjAllocationRecordsOffset_eq {m : Mem} {p i : Nat} (small : p < 2 ^ 64)
    (slotId : m.read 2 (slotIdAddr (objHeader p i)) = i) :
    getObjAllocationRecordsOffset m (objHeader p i) = p := by
  rw [getObjAllocationRecordsOffset, slotId, objHeader_eq, sizeofObjHeader]
  have wrapped : p + 64 + 48 * i + 2 ^ 64 - (i * 48 + 64) = p + 2 ^ 64 := by omega
  rw [wrapped, Nat.add_mod_right, Nat.mod_eq_of_lt small]

theorem recordObjHdrFree_eq {s : MetaShmem} {m : Mem} {p slot available : Nat} (notNull : p ≠ 0)
    (small : p < 2 ^ 64) (slotId : m.read 2 (slotIdAddr (objHeader p slot)) = slot)
    (count : m.read 2 (availableSlotsAddr p) = available) (few : available + 1 < 2 ^ 16)
    (redologPos : Nat) :
    recordObjHdrFree s redologPos (objHeader p slot) m =
      setAll s.redolog redologPos [.objHdrFree p slot (available + 1)] m := by
  have single : setAll s.redolog redologPos [.objHdrFree p slot (available + 1)] =
      setObjHdrFreeLogEntry s.redolog redologPos p slot (available + 1) := by
    simp only [setAll, LogEntry.set, bind_pure]
  rw [recordObjHdrFree, (Shm.Returns.get m).bind_eq, single,
    getObjAllocationRecordsOffset_eq small slotId, if_neg notNull, slotId, count,
    Nat.mod_eq_of_lt few]

end Slot

/-! ## An allocation -/

/-- The position that is found for a request. -/
def Mapping.pos (s : Mapping) (m : Mem) (length : Nat) : BuddyTreePos :=
  buddyMallocFindPos s.arena.toBuddyAlloc m length

/-- Its block. -/
def Mapping.block (s : Mapping) (m : Mem) (length : Nat) : Nat :=
  addressForPosition s.arena.toBuddyAlloc (s.pos m length)

/-- The tree has a free block for the request. -/
def Mapping.HasBlock (s : Mapping) (m : Mem) (length : Nat) : Prop :=
  buddyTreeValid s.arena.tree (s.pos m length) = true

instance (s : Mapping) (m : Mem) (length : Nat) : Decidable (s.HasBlock m length) :=
  inferInstanceAs (Decidable (_ = true))

/-- A machine that has mapped the memory, with its current page. -/
structure OnMachine (s : Mapping) (d : MetaDram) (cur : Nat) : Prop where
  memLength : d.memLength = s.memLength
  machineId : d.machineId < 2 ^ 16
  curObjRecs : d.curObjRecs = some cur

/-- The header of a new object: in the current page, or the first of a new page. -/
def newHeader (s : Mapping) (m : Mem) (cur : Nat) : Nat :=
  if 0 < m.read 2 (availableSlotsAddr cur) then objHeader cur (firstClearSlot m cur)
  else objHeader (s.block m sizeofRecords) 0

/-- The entries `record_obj_hdr_alloc` records. -/
def headerEntries (s : Mapping) (m : Mem) (cur machineId objPtr length : Nat)
    (progId : CString) : List LogEntry :=
  if 0 < m.read 2 (availableSlotsAddr cur) then [slotEntry m cur machineId objPtr length progId]
  else
    .buddyAlloc (s.pos m sizeofRecords) ::
      (appendEntries m s.shmem.objAllocs (s.block m sizeofRecords) ++
        [.initObjAllocRecs (s.block m sizeofRecords),
          .objHdrAlloc (s.block m sizeofRecords) objPtr length 0 (numObjSlots - 1) progId.bytes
            machineId])

/-- The log of an allocation. -/
def allocEntries (s : Mapping) (m : Mem) (cur machineId length : Nat) (progId : CString) :
    List LogEntry :=
  .buddyAlloc (s.pos m length) ::
    (headerEntries s m cur machineId (s.block m length) length progId ++
      appendEntries m s.shmem.objHeaders (newHeader s m cur))

section Allocate

variable {s : Mapping} {d : MetaDram} {m m' : Mem} {cur length : Nat} {progId : CString}

theorem OffLog.same (offLog : OffLog s.shmem.redolog m m') : s.Same m m' := by
  unfold OffLog at offLog
  rw [s.logEnd_eq, s.redolog_eq] at offLog
  exact ⟨fun a _ high => offLog a (.inl high), fun a low _ => offLog a (.inr low)⟩

theorem OffLog.tree (offLog : OffLog s.shmem.redolog m m') {a : Nat}
    (inTree : s.arena.tree.bits ≤ a) : m' a = m a := by
  have bits := s.bits_eq
  refine offLog a (.inr ?_)
  rw [s.logEnd_eq]
  omega

theorem OffLog.pos_eq (offLog : OffLog s.shmem.redolog m m') (length : Nat) :
    s.pos m' length = s.pos m length :=
  buddyMallocFindPos_congr (fun _ inTree => offLog.tree inTree) length

theorem appendEntries_congr {lq : Nat} (offLog : OffLog s.shmem.redolog m m')
    (low : s.base + 560 ≤ lq) (high : lq + 16 ≤ s.base + 592) (le : Nat) :
    appendEntries m' lq le = appendEntries m lq le := by
  unfold appendEntries
  rw [offLog.same.read_queue (by unfold peFirst; omega) (by unfold peFirst; omega),
    offLog.same.read_queue (by unfold peTail; omega) (by unfold peTail; omega)]

theorem allocAndLogLockheld_found {s : MetaShmem} {pos : BuddyTreePos}
    (found : buddyMallocFindPos s.buddyAlloc m length = pos)
    (valid : buddyTreeValid s.buddyAlloc.tree pos = true)
    (inside : addressForPosition s.buddyAlloc pos ≤ d.memLength) (redologPos : Nat) :
    allocAndLogLockheld s d length redologPos m =
      (do
        let redologPos ← setAll s.redolog redologPos [.buddyAlloc pos]
        pure (.ok (addressForPosition s.buddyAlloc pos), redologPos)
        : Shm (Except Int Nat × Nat)) m := by
  have notInvalid : ¬ buddyTreeValid s.buddyAlloc.tree pos = false := by
    rw [Bool.not_eq_false]
    exact valid
  rw [allocAndLogLockheld, (Shm.Returns.get m).bind_eq]
  simp only [found, if_neg notInvalid, if_neg (Nat.not_lt.mpr inside), setAll, LogEntry.set,
    bind_assoc, pure_bind]

theorem allocAndLogLockheld_eq (offLog : OffLog s.shmem.redolog m m')
    (hasBlock : s.HasBlock m length) (inside : s.block m length ≤ d.memLength) (redologPos : Nat) :
    allocAndLogLockheld s.shmem d length redologPos m' =
      (do
        let redologPos ← setAll s.shmem.redolog redologPos [.buddyAlloc (s.pos m length)]
        pure (.ok (s.block m length), redologPos) : Shm (Except Int Nat × Nat)) m' := by
  have found : buddyMallocFindPos s.shmem.buddyAlloc m' length = s.pos m length := by
    rw [s.buddyAlloc_eq]
    exact offLog.pos_eq length
  have valid : buddyTreeValid s.shmem.buddyAlloc.tree (s.pos m length) = true := by
    rw [s.buddyAlloc_eq]
    exact hasBlock
  have address : addressForPosition s.shmem.buddyAlloc (s.pos m length) = s.block m length := by
    rw [s.buddyAlloc_eq, Mapping.block]
  rw [← address] at inside ⊢
  exact allocAndLogLockheld_found found valid inside redologPos

theorem allocAndLogLockheld_error (noBlock : ¬ s.HasBlock m length) (redologPos : Nat) :
    (allocAndLogLockheld s.shmem d length redologPos).Returns m []
      (.error (-enomem), redologPos) := by
  have invalid : buddyTreeValid s.shmem.buddyAlloc.tree
      (buddyMallocFindPos s.shmem.buddyAlloc m length) = false := by
    rw [s.buddyAlloc_eq, ← Bool.not_eq_true]
    exact noBlock
  rw [allocAndLogLockheld]
  refine .get_bind ?_
  rw [if_pos invalid]
  exact .pure m _

/-- The position that is found is that of a node. -/
def Mapping.Finds (s : Mapping) (m : Mem) (length : Nat) : Prop :=
  ∃ p, s.pos m length = posOf p ∧ Node s.arena.tree.order p

theorem Mapping.Finds.hasBlock (finds : s.Finds m length) : s.HasBlock m length := by
  obtain ⟨p, found, node⟩ := finds
  rw [Mapping.HasBlock, found]
  exact posOf_valid.mpr node

theorem Mapping.Finds.fits (finds : s.Finds m length) :
    (LogEntry.buddyAlloc (s.pos m length)).Fits := by
  obtain ⟨p, found, node⟩ := finds
  have small := s.arena.tree.order_le
  have depth := node.size_le
  have index : p < 2 ^ 31 := lt_of_lt_of_le node.2 (Nat.pow_le_pow_right (by decide) small)
  rw [found]
  exact ⟨by simp only [posOf]; omega, by simp only [posOf]; omega⟩

/-- A request that will be recorded and committed: the blocks it needs are found, in the
mapping. -/
structure Recording (s : Mapping) (d : MetaDram) (m : Mem) (cur length : Nat) (progId : CString) :
    Prop where
  machine : OnMachine s d cur
  curInside : firstRecords ≤ cur ∧ cur + sizeofRecords ≤ s.base
  counted : m.read 2 (availableSlotsAddr cur) + countBits m (objAllocBitset cur) 0 numObjSlots =
    numObjSlots
  object : s.Finds m length
  objectInside : s.block m length ≤ s.base
  page : m.read 2 (availableSlotsAddr cur) = 0 → s.Finds m sizeofRecords
  pageInside : m.read 2 (availableSlotsAddr cur) = 0 →
    s.arena.main ≤ s.block m sizeofRecords ∧ s.block m sizeofRecords + sizeofRecords ≤ s.base
  lengthFits : length < 2 ^ 64
  short : progId.chars.length ≤ progIdSize + 1

namespace Recording

variable (recording : Recording s d m cur length progId)

include recording

theorem headerEntries_recordable {objPtr : Nat} (objFits : objPtr < 2 ^ 64) :
    ∀ entry ∈ headerEntries s m cur d.machineId objPtr length progId, entry.Recordable := by
  have base := s.base_high
  have reserved := s.main_eq
  have machineFits := recording.machine.machineId
  have lengthFits := recording.lengthFits
  have short := recording.short
  have curInside := recording.curInside
  unfold sizeofRecords at curInside
  unfold headerEntries
  split
  · rename_i available
    rw [List.forall_mem_singleton]
    exact slotEntry_recordable recording.counted available (by omega) objFits lengthFits machineFits
      short
  · rename_i full
    have finds := recording.page (by omega)
    have inside := recording.pageInside (by omega)
    have appended := @appendEntries_fits m s.shmem.objAllocs (s.block m sizeofRecords)
      (by unfold sizeofRecords at inside ⊢; omega) (by rw [s.objAllocs_eq]; omega)
    have initFits : (LogEntry.initObjAllocRecs (s.block m sizeofRecords)).Fits := by
      simp only [LogEntry.Fits]
      omega
    simp only [List.forall_mem_cons, List.forall_mem_append, List.not_mem_nil, IsEmpty.forall_iff,
      implies_true, and_true]
    refine ⟨finds.fits.recordable, fun entry member => (appended entry member).recordable,
      initFits.recordable, ⟨⟨?_, ?_, ?_, ?_, ?_, ?_, ?_⟩, ?_⟩⟩
    · omega
    · omega
    · omega
    · decide
    · decide
    · rw [CString.bytes, List.length_append, List.length_singleton]
      omega
    · omega
    · intro _ _ _ _ _ _ _ same
      obtain ⟨-, -, -, -, -, rfl, -⟩ := LogEntry.objHdrAlloc.inj same
      exact progId.cString_bytes

theorem newHeader_bounds : firstRecords ≤ newHeader s m cur ∧ newHeader s m cur + 48 ≤ s.base := by
  have reserved := s.main_eq
  have lower : firstRecords ≤ Layout.totalReserved := by decide
  unfold newHeader
  split
  · rename_i available
    have slot := objHeader_bounds (p := cur) (firstClearSlot_spec recording.counted available).1
    have := recording.curInside
    unfold sizeofRecords at this
    omega
  · rename_i full
    have slot := objHeader_bounds (p := s.block m sizeofRecords) (i := 0) (by decide)
    have := recording.pageInside (by omega)
    unfold sizeofRecords at this slot ⊢
    omega

theorem allocEntries_recordable :
    ∀ entry ∈ allocEntries s m cur d.machineId length progId, entry.Recordable := by
  have base := s.base_high
  have inside := recording.objectInside
  have header := recording.newHeader_bounds
  have appended := @appendEntries_fits m s.shmem.objHeaders (newHeader s m cur) (by omega)
    (by rw [s.objHeaders_eq]; omega)
  simp only [allocEntries, List.forall_mem_cons, List.forall_mem_append]
  exact ⟨recording.object.fits.recordable, recording.headerEntries_recordable (by omega),
    fun entry member => (appended entry member).recordable⟩

end Recording

theorem length_headerEntries (s : Mapping) (m : Mem) (cur machineId objPtr length : Nat)
    (progId : CString) :
    (headerEntries s m cur machineId objPtr length progId).length ≤ 5 := by
  unfold headerEntries
  split <;> simp [appendEntries]

theorem length_allocEntries (s : Mapping) (m : Mem) (cur machineId length : Nat)
    (progId : CString) :
    (allocEntries s m cur machineId length progId).length < redologEntries := by
  have := length_headerEntries s m cur machineId (s.block m length) length progId
  simp only [allocEntries, appendEntries, redologEntries, List.length_cons, List.length_append,
    List.length_nil]
  omega

/-- A terminated name is logged as it is. -/
theorem allocEntries_logged (s : Mapping) (m : Mem) (cur machineId length : Nat) (name : ProgId) :
    (allocEntries s m cur machineId length name.toCString).map LogEntry.logged =
      allocEntries s m cur machineId length name.toCString := by
  have header : ∀ a b c d e, (LogEntry.objHdrAlloc a b c d e name.bytes machineId).logged =
      .objHdrAlloc a b c d e name.bytes machineId := fun a b c d e =>
    LogEntry.logged_of_short a b c d e name.bytes_length_le machineId
  have appended : ∀ lq le, (appendEntries m lq le).map LogEntry.logged = appendEntries m lq le := by
    intro lq le
    unfold appendEntries
    split <;> rfl
  have block : ∀ position, (LogEntry.buddyAlloc position).logged = .buddyAlloc position :=
    fun _ => rfl
  have fresh : ∀ page, (LogEntry.initObjAllocRecs page).logged = .initObjAllocRecs page :=
    fun _ => rfl
  unfold allocEntries headerEntries
  simp only [List.map_cons, List.map_append, appended, block]
  split <;> simp only [List.map_cons, List.map_append, List.map_nil, appended, block, fresh, header,
    slotEntry]

namespace Recording

variable (recording : Recording s d m cur length progId)

include recording

/-- A log that is behind this memory does not change what is recorded for the header. -/
theorem recordObjHdrAlloc_eq (offLog : OffLog s.shmem.redolog m m') {redologPos objPtr : Nat}
    (room : redologPos + 5 ≤ redologEntries) (objFits : objPtr < 2 ^ 64) :
    recordObjHdrAlloc s.shmem d redologPos objPtr length progId m' =
      (do
        let redologPos ← setAll s.shmem.redolog redologPos
          (headerEntries s m cur d.machineId objPtr length progId)
        pure (some (newHeader s m cur), redologPos) : Shm (Option Nat × Nat)) m' := by
  have isCur := recording.machine.curObjRecs
  obtain ⟨low, high⟩ := recording.curInside
  have samePage : ∀ a, cur ≤ a → a < cur + sizeofRecords → m' a = m a := fun a above below =>
    offLog.same.pages a (by omega) (by omega)
  have count : m'.read 2 (availableSlotsAddr cur) = m.read 2 (availableSlotsAddr cur) :=
    Mem.read_congr fun a above below => samePage a (by unfold availableSlotsAddr at above; omega)
      (by unfold availableSlotsAddr at below; unfold sizeofRecords; omega)
  have recordable := recording.headerEntries_recordable objFits
  unfold headerEntries newHeader at *
  by_cases available : 0 < m.read 2 (availableSlotsAddr cur)
  · rw [recordObjHdrAlloc_slot isCur (by omega), slotEntry, firstClearSlot_congr samePage, count]
    simp only [if_pos available, slotEntry]
  · have full : m.read 2 (availableSlotsAddr cur) = 0 := by omega
    have inside := recording.pageInside full
    have memory := s.base_lt
    simp only [if_neg available] at recordable ⊢
    simp only [recordObjHdrAlloc, isCur]
    rw [(Shm.Returns.get m').bind_eq, if_neg (by omega)]
    rw [Shm.bind_left_congr (allocAndLogLockheld_eq offLog (recording.page full).hasBlock
      (by rw [recording.machine.memLength]; omega) redologPos)]
    have split := setAll_append s.shmem.redolog redologPos
      [.buddyAlloc (s.pos m sizeofRecords)]
      (appendEntries m s.shmem.objAllocs (s.block m sizeofRecords) ++
        [.initObjAllocRecs (s.block m sizeofRecords),
          .objHdrAlloc (s.block m sizeofRecords) objPtr length 0 (numObjSlots - 1) progId.bytes
            d.machineId])
    rw [List.singleton_append] at split
    rw [split, bind_assoc, bind_assoc]
    simp only [pure_bind]
    refine setAll_bind_congr (fun entry member => recordable entry ?_) ?_ fun m'' later => ?_
    · rw [List.mem_singleton.mp member]
      exact List.mem_cons_self
    · simp only [List.length_singleton]
      omega
    · have whole := offLog.trans later
      rw [Shm.bind_left_congr (recordListQueueAppend_eq m'' _ _ _ _),
        appendEntries_congr whole (by rw [s.objAllocs_eq]; omega) (by rw [s.objAllocs_eq]),
        setAll_append]
      simp only [setAll, LogEntry.set, bind_assoc, pure_bind, s.redolog_eq]

/-- An allocation commits its log, executes it and returns the block. -/
theorem atomicAllocateMemoryLockheld_eq :
    atomicAllocateMemoryLockheld s.shmem d length progId m =
      (do
        let redologPos ← commitLog s.shmem.redolog
          (allocEntries s m cur d.machineId length progId)
        let cur ← executeLog s.shmem.buddyAlloc s.shmem.redolog redologPos d.curObjRecs
        pure (.ok (s.block m length), cur) : Shm (Except Int Nat × Option Nat)) m := by
  have base := s.base_lt
  have high := s.base_high
  have inside := recording.objectInside
  have recordable := recording.allocEntries_recordable
  unfold allocEntries at recordable
  rw [atomicAllocateMemoryLockheld, Shm.bind_left_congr (allocAndLogLockheld_eq (.refl _ m)
    recording.object.hasBlock (by rw [recording.machine.memLength]; omega) 0)]
  have split := setAll_append s.shmem.redolog 0 [.buddyAlloc (s.pos m length)]
    (headerEntries s m cur d.machineId (s.block m length) length progId ++
      appendEntries m s.shmem.objHeaders (newHeader s m cur))
  rw [List.singleton_append] at split
  rw [commitLog, allocEntries, split]
  simp only [bind_assoc, pure_bind]
  refine setAll_bind_congr (fun entry member => recordable entry ?_) (by simp [redologEntries])
    fun m' offLog => ?_
  · rw [List.mem_singleton.mp member]
    exact List.mem_cons_self
  rw [Shm.bind_left_congr (recording.recordObjHdrAlloc_eq offLog (by simp [redologEntries])
    (by omega)), setAll_append]
  simp only [bind_assoc, pure_bind, Option.getD_some]
  refine setAll_bind_congr (fun entry member => recordable entry ?_) ?_ fun m'' later => ?_
  · exact List.mem_cons_of_mem _ (List.mem_append_left _ member)
  · have := length_headerEntries s m cur d.machineId (s.block m length) length progId
    simp only [List.length_singleton, redologEntries]
    omega
  rw [Shm.bind_left_congr (recordListQueueAppend_eq m'' _ _ _ _), appendEntries_congr
    (offLog.trans later) (by rw [s.objHeaders_eq]) (by rw [s.objHeaders_eq]; omega)]

end Recording

end Allocate

end Lupin.Alloc
