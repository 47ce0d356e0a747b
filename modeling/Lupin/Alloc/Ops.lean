import Lupin.Alloc.ListQueue
import Lupin.Buddy.Allocator

/-!
# Named allocations

`find_allocation`, `atomic_allocate_memory` and `atomic_free_memory`. They run under
`meta_lock`, one at a time, so each is one computation on shared memory here. Pointers
into the mapping are offsets from `mem_start`.
-/

namespace Lupin.Alloc

open Lupin.Memory Lupin.Buddy Lupin.Log

/-- `ENOMEM`. -/
def enomem : Int := 12

/-- `EFAULT`. -/
def efault : Int := 14

/-- A C string, by the characters before its NUL. -/
structure CString where
  chars : List Byte
  nonzero : ∀ c ∈ chars, c ≠ 0
deriving DecidableEq

def CString.bytes (name : CString) : List Byte := name.chars ++ [0]

/-- A string that ends inside an array of `PROG_ID_SIZE` bytes. -/
structure ProgId extends CString where
  short : chars.length < progIdSize
deriving DecidableEq

theorem ProgId.bytes_length_le (progId : ProgId) : progId.bytes.length ≤ progIdSize := by
  rw [CString.bytes, List.length_append]
  exact progId.short

theorem ProgId.isProgId (progId : ProgId) : IsProgId progId.bytes :=
  ⟨⟨progId.chars, rfl, progId.nonzero⟩, progId.bytes_length_le⟩

/-- `struct region_desc`, with the string that starts at its `prog_id`. -/
structure RegionDesc where
  offset : Nat
  length : Nat
  progId : CString
deriving DecidableEq

/-- `struct vcxl_find_alloc`. -/
structure VcxlFindAlloc where
  desc : RegionDesc
  existing : Bool
deriving DecidableEq

/-- Where `struct meta_shmem` is, and the `struct buddy` in it. -/
structure MetaShmem where
  base : Nat
  buddyAlloc : BuddyAlloc

/-! Fields of `struct meta_shmem`. -/

def MetaShmem.redolog (s : MetaShmem) : Nat := s.base
def MetaShmem.objHeaders (s : MetaShmem) : Nat := s.base + 560
def MetaShmem.objAllocs (s : MetaShmem) : Nat := s.base + 576

/-- `struct meta_dram` of one machine. -/
structure MetaDram where
  memStart : Nat
  memLength : Nat
  machineId : Nat
  curObjRecs : Option Nat

/-! ## Allocation -/

/-- `alloc_and_log_lockheld`: the error code or the block, and the position in the log. The
pointer it compares with `NULL` is behind `mem_start`. -/
def allocAndLogLockheld (s : MetaShmem) (d : MetaDram) (length redologPos : Nat) :
    Shm (Except Int Nat × Nat) := do
  let m ← Shm.get
  let pos := buddyMallocFindPos s.buddyAlloc m length
  if buddyTreeValid s.buddyAlloc.tree pos = false then pure (.error (-enomem), redologPos)
  else
    let redologPos ← setBuddyopLogEntry s.redolog redologPos .buddyAlloc pos
    let obj := addressForPosition s.buddyAlloc pos
    if obj > d.memLength then pure (.error (-efault), redologPos)
    else pure (.ok obj, redologPos)

/-- The loop of `record_obj_hdr_alloc`: the first clear slot of a page, 0 if there is none. -/
def firstClearSlot (m : Mem) (records : Nat) : Nat :=
  ((List.range numObjSlots).find? fun i => !bitsetTest m (objAllocBitset records) i).getD 0

/-- `record_obj_hdr_alloc`: the header, `none` for `NULL`, and the position in the log. It
dereferences `cur_obj_recs`. -/
def recordObjHdrAlloc (s : MetaShmem) (d : MetaDram) (redologPos objPtr length : Nat)
    (progId : CString) : Shm (Option Nat × Nat) :=
  match d.curObjRecs with
  | none => Shm.stop
  | some cur => do
      let m ← Shm.get
      if m.read 2 (availableSlotsAddr cur) > 0 then
        let slot := firstClearSlot m cur
        let redologPos ← setObjHdrAllocLogEntry s.redolog redologPos cur objPtr length
          progId.bytes slot d.machineId (m.read 2 (availableSlotsAddr cur) - 1)
        pure (some (objHeader cur slot), redologPos)
      else
        match ← allocAndLogLockheld s d sizeofRecords redologPos with
        | (.error _, redologPos) => pure (none, redologPos)
        | (.ok obj, redologPos) => do
            let redologPos ← recordListQueueAppend s.redolog redologPos s.objAllocs obj
            let redologPos ← setInitObjAllocsLogEntry s.redolog redologPos obj
            let redologPos ← setObjHdrAllocLogEntry s.redolog redologPos obj objPtr length
              progId.bytes 0 d.machineId (numObjSlots - 1)
            pure (some (objHeader obj 0), redologPos)

/-- `atomic_allocate_memory_lockheld`: the error code or the block, and `cur_obj_recs`. The
list entry of a `NULL` header is `NULL`. -/
def atomicAllocateMemoryLockheld (s : MetaShmem) (d : MetaDram) (length : Nat) (progId : CString) :
    Shm (Except Int Nat × Option Nat) := do
  match ← allocAndLogLockheld s d length 0 with
  | (.error code, _) => pure (.error code, d.curObjRecs)
  | (.ok obj, redologPos) => do
      let (objHdr, redologPos) ← recordObjHdrAlloc s d redologPos obj length progId
      let redologPos ← recordListQueueAppend s.redolog redologPos s.objHeaders (objHdr.getD 0)
      let redologPos ← setCommitLogEntry s.redolog redologPos
      let cur ← executeLog s.buddyAlloc s.redolog redologPos d.curObjRecs
      pure (.ok obj, cur)

/-! ## Loops over a list -/

/-- A loop over a list from an entry on: the first entry with the property, `none` if it does not
end in so many rounds. -/
def walkList (m : Mem) (test : Nat → Bool) : (rounds entry : Nat) → Option (Option Nat)
  | 0, _ => none
  | rounds + 1, entry =>
      if test entry then some (some entry)
      else if m.read 8 (leNextOptr entry) = 0 then some none
      else walkList m test rounds (m.read 8 (leNextOptr entry))

/-- The same from the head of a `list_queue`. There are 2^64 places for an entry, so a longer loop
goes in circles. -/
def walkQueue (m : Mem) (test : Nat → Bool) (lq : Nat) : Option (Option Nat) :=
  if m.read 8 (peFirst lq) = 0 then some none
  else walkList m test (2 ^ 64) (m.read 8 (peFirst lq))

/-! ## Search by name -/

/-- The test of the search loops: `strlen` of the header's name is that of the argument, and
so many characters are the same. -/
def namedAt (m : Mem) (progId : CString) (objHdr : Nat) : Bool :=
  strlen m (2 ^ 64) (progIdAddr objHdr) == progId.chars.length &&
    m.bytesAt progId.chars.length (progIdAddr objHdr) == progId.chars

/-- The search of `atomic_free_memory` and `find_allocation`. -/
def findObjHeader (s : MetaShmem) (progId : CString) : Shm (Option Nat) := do
  let m ← Shm.get
  match walkQueue m (namedAt m progId) s.objHeaders with
  | some found => pure found
  | none => Shm.stop

/-! ## Free -/

/-- `get_obj_allocation_records_offset`. -/
def getObjAllocationRecordsOffset (m : Mem) (objHdr : Nat) : Nat :=
  (objHdr + 2 ^ 64 - (m.read 2 (slotIdAddr objHdr) * sizeofObjHeader + 64)) % 2 ^ 64

/-- `record_obj_hdr_free`. Offset 0 is a null pointer, which it dereferences. -/
def recordObjHdrFree (s : MetaShmem) (redologPos objHdr : Nat) : Shm Nat := do
  let m ← Shm.get
  let allocRecs := getObjAllocationRecordsOffset m objHdr
  if allocRecs = 0 then Shm.stop
  else
    setObjHdrFreeLogEntry s.redolog redologPos allocRecs (m.read 2 (slotIdAddr objHdr))
      ((m.read 2 (availableSlotsAddr allocRecs) + 1) % 2 ^ 16)

/-- `atomic_free_memory`: the result and `cur_obj_recs`. -/
def atomicFreeMemory (s : MetaShmem) (d : MetaDram) (freeArg : RegionDesc) :
    Shm (Int × Option Nat) := do
  match ← findObjHeader s freeArg.progId with
  | none => pure (0, d.curObjRecs)
  | some objHdr => do
      let m ← Shm.get
      let pos := buddyFreeFindPos s.buddyAlloc m freeArg.offset freeArg.length
      if buddyTreeValid s.buddyAlloc.tree pos = false then pure (-efault, d.curObjRecs)
      else
        Shm.putAll (blankEntry (entryAddr s.redolog 0))
        let redologPos ← setBuddyopLogEntry s.redolog 0 .buddyFree pos
        let redologPos ← recordListQueueRemove s.redolog redologPos s.objHeaders objHdr
        let redologPos ← recordObjHdrFree s redologPos objHdr
        let redologPos ← setCommitLogEntry s.redolog redologPos
        let cur ← executeLog s.buddyAlloc s.redolog redologPos d.curObjRecs
        pure (0, cur)

/-! ## Find -/

/-- What `find_allocation` leaves: its argument, the local `obj`, `none` for `NULL`, and
`cur_obj_recs`. -/
structure FindResult where
  findAlloc : VcxlFindAlloc
  obj : Option Nat
  curObjRecs : Option Nat

/-- `obj - mem_start`, as an unsigned number. -/
def offsetOf (d : MetaDram) : Option Nat → Nat
  | some obj => obj
  | none => 2 ^ 64 - d.memStart

/-- `find_allocation`. It does not look at the result of the allocation. -/
def findAllocation (s : MetaShmem) (d : MetaDram) (desc : RegionDesc) : Shm FindResult := do
  match ← findObjHeader s desc.progId with
  | some objHdr => do
      let m ← Shm.get
      pure
        { findAlloc :=
            { desc :=
                { desc with
                  offset := m.read 8 (objOptrAddr objHdr)
                  length := m.read 8 (lengthAddr objHdr) }
              existing := true }
          obj := none
          curObjRecs := d.curObjRecs }
  | none =>
      if desc.length > 0 then do
        let (result, cur) ← atomicAllocateMemoryLockheld s d desc.length desc.progId
        let obj := result.toOption
        pure ⟨⟨{ desc with offset := offsetOf d obj }, false⟩, obj, cur⟩
      else pure ⟨⟨desc, false⟩, none, d.curObjRecs⟩

/-! ## Set-up -/

/-- The record page at the start of the mapping. -/
def firstRecords : Nat := Layout.futexAddrQueueSize

/-- The metadata `vcxl_init_meta_impl` sets up in a mapping, and its size. -/
def metaShmemOf (memLength : Nat) : Option (MetaShmem × Nat) := do
  let result ← Layout.metashmemEmbedOffset (Layout.remaining memLength Layout.totalReserved)
    Layout.buddyAllocAlignment
  let base ← Layout.embedAt memLength result
  let buddyAlloc ← metashmemInitAlignment base Layout.totalReserved result.offset
    Layout.buddyAllocAlignment
  pure (⟨base, buddyAlloc⟩, result.buddySize)

/-- `vcxl_init_meta_impl`, without the areas of the queues and of the cgroups. -/
def vcxlInitMeta (s : MetaShmem) (buddySize : Nat) : Shm Unit := do
  Shm.putAll (initObjAllocationRecords firstRecords)
  Shm.putAll (Mem.copy s.base (List.replicate buddySize 0))
  setUp s.buddyAlloc
  Shm.putAll [Mem.scalar 8 (peFirst s.objHeaders) 0, Mem.scalar 8 (peTail s.objHeaders) 0]
  Shm.putAll (Mem.copy s.redolog (List.replicate (sizeofLogEntry * redologEntries) 0))
  Shm.putAll
    [Mem.scalar 8 (peFirst s.objAllocs) firstRecords,
      Mem.scalar 8 (peTail s.objAllocs) firstRecords]

end Lupin.Alloc
