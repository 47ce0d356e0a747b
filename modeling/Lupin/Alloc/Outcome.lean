import Lupin.Alloc.Recovery
import Lupin.Alloc.Setup

/-!
# What an allocation comes to

From a sound state an allocation is refused, completes, or never returns. A machine without a
record page stops at a null pointer, and so does one whose page is full when there is no block
for another: `record_obj_hdr_alloc` returns `NULL`, and what is logged for that header is
committed and executed.
-/

namespace Lupin.Alloc

open Lupin.Memory Lupin.HeapIndex Lupin.LevelTree Lupin.Buddy Lupin.Log Lupin.LinkedList

section Outcome

variable {s : Mapping} {m : Mem} {pages headers : List Nat} {live : List (Nat × Nat)} {d : MetaDram}
  {cur length : Nat} {progId : CString}

/-- Without a block for the object nothing happens. -/
theorem allocate_refused (noBlock : ¬ s.HasBlock m length) (d : MetaDram) (progId : CString) :
    (atomicAllocateMemoryLockheld s.shmem d length progId).Returns m []
      (.error (-enomem), d.curObjRecs) :=
  (allocAndLogLockheld_error noBlock 0).read_bind (.pure _ _)

/-- A machine without a record page. -/
theorem Sound.allocate_without_page (sound : Sound s m pages headers live)
    (memLength : d.memLength = s.memLength) (hasBlock : s.HasBlock m length)
    (noPage : d.curObjRecs = none) (progId : CString) :
    (atomicAllocateMemoryLockheld s.shmem d length progId m).2 = none := by
  obtain ⟨finds, _, _, _, inside, _⟩ := sound.found hasBlock
  have high := s.base_lt
  rw [atomicAllocateMemoryLockheld, Shm.bind_left_congr (allocAndLogLockheld_eq (.refl _ m) hasBlock
    (by rw [memLength]; omega) 0), bind_assoc]
  simp only [pure_bind, recordObjHdrAlloc, noPage]
  exact Shm.bind_stops fun stores pos _ => rfl

/-- A machine with a page and, if the page is full, a block for another. -/
theorem Sound.allocate_returns (sound : Sound s m pages headers live) (machine : OnMachine s d cur)
    (member : cur ∈ pages) (hasBlock : s.HasBlock m length)
    (page : m.read 2 (availableSlotsAddr cur) = 0 → s.HasBlock m sizeofRecords) (name : ProgId) :
    ∃ stores, (atomicAllocateMemoryLockheld s.shmem d length name.toCString).Returns m stores
      (.ok (s.block m length), some (newCur s m cur)) := by
  have recording := sound.recording machine member hasBlock page
    (name.short.le.trans (Nat.le_add_right _ _))
  obtain ⟨_, _, _, returns, _⟩ := recording.allocates sound.shape member fun full =>
    sound.pagesAt (page full)
  exact ⟨_, returns⟩

/-- The log when there is no block for a page. -/
def nullEntries (s : Mapping) (m : Mem) (length : Nat) : List LogEntry :=
  .buddyAlloc (s.pos m length) :: appendEntries m s.shmem.objHeaders 0

/-- The entries for a null header write to the first bytes of the mapping and to a link, and stop
at the second pair. -/
theorem Shape.executeEntries_null (shape : Shape s m pages headers) (b : BuddyAlloc)
    (curObjRecs : Option Nat) (m' : Mem) :
    ∃ stores, executeEntries b (appendEntries m s.shmem.objHeaders 0) curObjRecs m' =
      (stores, none) ∧ s.SparesLog stores := by
  have low := s.base_low
  have stops : ∀ {off1 value1 off2 value2 : Nat} (m'' : Mem), off1 ≠ 0 → off2 ≠ 0 →
      executeEntries b [.twoVal off1 value1 off2 value2,
        .twoVal (leNextOptr 0) 0 (peTail s.shmem.objHeaders) 0] curObjRecs m'' =
        ([Mem.scalar 8 off1 value1, Mem.scalar 8 off2 value2], none) := by
    intro off1 value1 off2 value2 m'' notNull notNull'
    rw [executeEntries,
      (executeEntry_twoVal m'' curObjRecs value1 value2 notNull notNull').bind_apply]
    rfl
  unfold appendEntries
  by_cases empty : m.read 8 (peFirst s.shmem.objHeaders) = 0
  · rw [if_pos empty]
    refine ⟨_, stops m' (by simp [lePrevOptr]) (by rw [s.objHeaders_eq]; unfold peFirst; omega), ?_⟩
    rw [Mapping.SparesLog, s.logEnd_eq]
    simp only [List.forall_mem_cons, List.not_mem_nil, IsEmpty.forall_iff, implies_true, and_true,
      Store.Outside, Mem.scalar, Mem.length_leBytes, lePrevOptr, peFirst, s.redolog_eq,
      s.objHeaders_eq]
    omega
  · rw [if_neg empty]
    have some : headers ≠ [] := by
      rintro rfl
      exact empty shape.headerList.first
    have tail := shape.pagesAt.header_bounds (shape.tailIn some)
    refine ⟨_, stops m' (by simp [lePrevOptr]) (by unfold leNextOptr; omega), ?_⟩
    simp only [Mapping.SparesLog, List.forall_mem_cons, List.not_mem_nil, IsEmpty.forall_iff,
      implies_true, and_true, Store.Outside, Mem.scalar, Mem.length_leBytes, lePrevOptr, leNextOptr,
      s.redolog_eq]
    omega

/-- A machine whose page is full, without a block for another. -/
theorem Sound.allocate_full (sound : Sound s m pages headers live) (machine : OnMachine s d cur)
    (member : cur ∈ pages) (hasBlock : s.HasBlock m length)
    (full : m.read 2 (availableSlotsAddr cur) = 0) (noBlock : ¬ s.HasBlock m sizeofRecords)
    (progId : CString) :
    (atomicAllocateMemoryLockheld s.shmem d length progId m).2 = none := by
  obtain ⟨finds, _, _, _, inside, _⟩ := sound.found hasBlock
  have base := s.base_lt
  have high := s.base_high
  have bounds := sound.shape.pagesAt.bounds member
  have appended := @appendEntries_fits m s.shmem.objHeaders 0 (by omega)
    (by rw [s.objHeaders_eq]; omega)
  have fits : ∀ entry ∈ nullEntries s m length, entry.Fits :=
    List.forall_mem_cons.mpr ⟨finds.fits, appended⟩
  have few : (nullEntries s m length).length < redologEntries := by
    simp [nullEntries, appendEntries, redologEntries]
  -- the header is not recorded, and the log is committed without it
  have recorded : ∀ m', OffLog s.shmem.redolog m m' → ∀ redologPos,
      (recordObjHdrAlloc s.shmem d redologPos (s.block m length) length progId).Returns m' []
        (none, redologPos) := by
    intro m' offLog redologPos
    have count : m'.read 2 (availableSlotsAddr cur) = 0 :=
      (offLog.same.read_page
        (by unfold firstRecords Layout.futexAddrQueueSize availableSlotsAddr; omega)
        (by unfold availableSlotsAddr; omega)).trans full
    have noBlock' : ¬ s.HasBlock m' sizeofRecords := by
      rw [Mapping.HasBlock, offLog.pos_eq]
      exact noBlock
    simp only [recordObjHdrAlloc, machine.curObjRecs]
    refine .get_bind ?_
    rw [if_neg (by omega)]
    exact (allocAndLogLockheld_error noBlock' redologPos).read_bind (.pure _ _)
  have whole : atomicAllocateMemoryLockheld s.shmem d length progId m =
      (do
        let redologPos ← commitLog s.shmem.redolog (nullEntries s m length)
        let cur ← executeLog s.shmem.buddyAlloc s.shmem.redolog redologPos d.curObjRecs
        pure (.ok (s.block m length), cur) : Shm (Except Int Nat × Option Nat)) m := by
    have split := setAll_append s.shmem.redolog 0 [.buddyAlloc (s.pos m length)]
      (appendEntries m s.shmem.objHeaders 0)
    rw [List.singleton_append] at split
    rw [atomicAllocateMemoryLockheld, Shm.bind_left_congr (allocAndLogLockheld_eq (.refl _ m)
      hasBlock (by rw [machine.memLength]; omega) 0), commitLog, nullEntries, split]
    simp only [bind_assoc, pure_bind]
    refine setAll_bind_congr ?_ (by simp [redologEntries]) fun m' offLog => ?_
    · rw [List.forall_mem_singleton]
      exact finds.fits.recordable
    · rw [(recorded m' offLog _).bind_eq]
      simp only [Option.getD_none]
      rw [Shm.bind_left_congr (recordListQueueAppend_eq m' _ _ _ _), appendEntries_congr offLog
        (by rw [s.objHeaders_eq]) (by rw [s.objHeaders_eq]; omega)]
  obtain ⟨written, committing, within, committed⟩ := @commitLog_spec s.shmem.redolog _ fits few m
  obtain ⟨marks, marked, _, inTree⟩ := finds.executes d.curObjRecs (m.apply written)
  obtain ⟨rest, stops, spares⟩ := sound.shape.executeEntries_null s.shmem.buddyAlloc d.curObjRecs
    ((m.apply written).apply marks)
  have executed : executeEntries s.shmem.buddyAlloc (nullEntries s m length) d.curObjRecs
      (m.apply written) = (marks ++ rest, none) := by
    rw [nullEntries, executeEntries, marked.bind_apply, stops]
  have outside : s.SparesLog ((executeEntries s.shmem.buddyAlloc (nullEntries s m length)
      d.curObjRecs).stores (m.apply written)) := by
    rw [Shm.stores, executed]
    exact List.forall_mem_append.mpr ⟨inTree.sparesLog, spares⟩
  have ran :=
    (committed.execute_eq (fun entry isEntry => (fits entry isEntry).readable) few outside).2
  rw [whole, committing.bind_apply, Shm.bind_of_none (ran.trans executed)]

end Outcome

end Lupin.Alloc
