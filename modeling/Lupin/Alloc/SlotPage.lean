import Lupin.Alloc.Record
import Lupin.Lib.Transition

/-!
# The slots of one record page

Runs of `record_obj_hdr_alloc` and `record_obj_hdr_free` on a page, each followed by the
execution of what it recorded.
-/

namespace Lupin.Alloc

open Lupin.Memory Lupin.Buddy Lupin.Log Lupin.Transition

/-- A record page with a log apart from it. -/
structure RecordPage where
  shmem : MetaShmem
  page : Nat
  notNull : page ≠ 0
  bound : page + sizeofRecords ≤ 2 ^ 64
  apart : page + sizeofRecords ≤ shmem.redolog ∨
    entryAddr shmem.redolog redologEntries ≤ page

theorem RecordPage.lt_size (r : RecordPage) : r.page < 2 ^ 64 := by
  have := r.bound
  unfold sizeofRecords at this
  omega

inductive SlotAction where
  | alloc (d : MetaDram) (objPtr length : UInt64) (progId : ProgId)
  | free (slot : Fin numObjSlots)

/-- `record_obj_hdr_alloc` with the execution of its entry. -/
def allocSlot (r : RecordPage) (d : MetaDram) (objPtr length : UInt64) (progId : ProgId) :
    Shm (Option Nat) := do
  let (_, redologPos) ←
    recordObjHdrAlloc r.shmem d 0 objPtr.toNat length.toNat progId.toCString
  executeLog r.shmem.buddyAlloc r.shmem.redolog redologPos d.curObjRecs

/-- `record_obj_hdr_free` with the execution of its entry. -/
def freeSlot (r : RecordPage) (slot : Nat) : Shm (Option Nat) := do
  let redologPos ← recordObjHdrFree r.shmem 0 (objHeader r.page slot)
  executeLog r.shmem.buddyAlloc r.shmem.redolog redologPos (some r.page)

/-- One operation on the page: an allocation of a machine that has it as current page while
slots are available, or a free of an allocated header. -/
def slotStep (r : RecordPage) (m : Mem) : SlotAction → Option Mem
  | .alloc d objPtr length progId =>
      if d.curObjRecs = some r.page ∧ d.machineId < 2 ^ 16 ∧
          0 < m.read 2 (availableSlotsAddr r.page) then
        ((allocSlot r d objPtr length progId).run m).map Prod.fst
      else none
  | .free slot =>
      if bitsetTest m (objAllocBitset r.page) slot then
        ((freeSlot r slot).run m).map Prod.fst
      else none

/-- Runs from a page that `init_obj_allocation_records` has set up. -/
def slotMachine (r : RecordPage) (prior : Mem) : Machine Mem SlotAction where
  initial := prior.apply (initObjAllocationRecords r.page)
  step := slotStep r

theorem slotMachine_initial (r : RecordPage) (prior : Mem) :
    (slotMachine r prior).initial = prior.apply (initObjAllocationRecords r.page) := by
  simp only [slotMachine]

/-- What holds of the page. -/
structure SlotsKept (m : Mem) (p : Nat) : Prop where
  counted : m.read 2 (availableSlotsAddr p) + countBits m (objAllocBitset p) 0 numObjSlots =
    numObjSlots
  spare : ∀ k, numObjSlots ≤ k → k < 8 * sizeofObjBitset → bit m (objAllocBitset p) k = false
  slotIds : ∀ i, i < numObjSlots → m.read 2 (slotIdAddr (objHeader p i)) = i

section Page

variable {m m' : Mem} {p slot : Nat}

theorem slotIds_initObjAllocationRecords (m : Mem) (p : Nat) {i : Nat} (bound : i < numObjSlots) :
    (m.apply (initObjAllocationRecords p)).read 2 (slotIdAddr (objHeader p i)) = i := by
  have apart : ((List.range numObjSlots).map fun i =>
      Mem.scalar 2 (slotIdAddr (objHeader p i)) i).Pairwise Store.Apart := by
    refine List.pairwise_map.mpr (List.pairwise_lt_range.imp fun {i j} before => ?_)
    simp only [Mem.scalar_apart, slotIdAddr, objHeader_eq]
    omega
  rw [initObjAllocationRecords, Mem.apply_append, Mem.apply_cons]
  refine Mem.read_apply_of_mem apart (List.mem_map.mpr ⟨i, List.mem_range.mpr bound, rfl⟩) ?_ _
  unfold numObjSlots at bound
  omega

theorem slotsKept_init (m : Mem) (p : Nat) :
    SlotsKept (m.apply (initObjAllocationRecords p)) p := by
  obtain ⟨_, available, clear⟩ := initObjAllocationRecords_reads m p
  refine ⟨?_, fun k _ below => clear k below, fun i bound =>
    slotIds_initObjAllocationRecords m p bound⟩
  rw [available, countBits_of_all_clear fun j below => clear _ ?_, Nat.add_zero]
  rw [Nat.zero_add]
  exact below.trans_le (by decide)

theorem SlotsKept.congr (kept : SlotsKept m p)
    (same : ∀ a, p ≤ a → a < p + sizeofRecords → m' a = m a) : SlotsKept m' p := by
  unfold sizeofRecords at same
  have bits : ∀ k, k < 8 * sizeofObjBitset →
      bit m' (objAllocBitset p) k = bit m (objAllocBitset p) k := by
    intro k below
    unfold sizeofObjBitset at below
    exact bit_congr (same _ (by unfold objAllocBitset; omega) (by unfold objAllocBitset; omega))
  refine ⟨?_, fun k high below => ?_, fun i bound => ?_⟩
  · have available : m'.read 2 (availableSlotsAddr p) = m.read 2 (availableSlotsAddr p) :=
      Mem.read_congr fun a low high => by
        unfold availableSlotsAddr at low high
        exact same a (by omega) (by omega)
    rw [available, countBits_congr (m := m) fun j below => bits _ ?_]
    · exact kept.counted
    · rw [Nat.zero_add]
      exact below.trans_le (by decide)
  · rw [bits k below]
    exact kept.spare k high below
  · have place := objHeader_bounds (p := p) bound
    refine Eq.trans (Mem.read_congr fun a low high => ?_) (kept.slotIds i bound)
    unfold slotIdAddr at low high
    exact same a (by omega) (by omega)

/-- Stores to the slot map and to one header leave the other slot ids. -/
theorem SlotsKept.slotId_apply (kept : SlotsKept m p) {stores : List Store}
    (within : ∀ t ∈ stores, t.Within (p + 16) (p + 62) ∨
      t.Within (objHeader p slot + 16) (objHeader p slot + 48)) {i : Nat} (bound : i < numObjSlots)
    (other : i ≠ slot) : (m.apply stores).read 2 (slotIdAddr (objHeader p i)) = i := by
  refine Eq.trans (Mem.read_congr fun a low high => ?_) (kept.slotIds i bound)
  refine Mem.apply_of_not_covers (fun t member => ?_) m
  rw [objHeader_eq] at within low high
  unfold slotIdAddr at low high
  rcases within t member with inMap | inHeader
  · exact inMap.not_covers (.inr (by omega))
  · exact inHeader.not_covers (by omega)

/-- Filling a clear slot. -/
theorem SlotsKept.fill (kept : SlotsKept m p) (bound : slot < numObjSlots)
    (clear : bit m (objAllocBitset p) slot = false) {objPtr length : Nat}
    (objFits : objPtr < 2 ^ 64) (lengthFits : length < 2 ^ 64) (name : ProgId) (machineId : Nat) :
    let m' := m.apply (hdrAllocStores m p objPtr length slot (m.read 2 (availableSlotsAddr p) - 1)
      name.bytes machineId)
    SlotsKept m' p ∧ bit m' (objAllocBitset p) slot = true := by
  intro m'
  have counted := kept.counted
  obtain ⟨available, slotId, _, bits⟩ := @hdrAllocStores_reads p slot objPtr length
    (m.read 2 (availableSlotsAddr p) - 1) machineId bound name
    (lt_of_le_of_lt (Nat.sub_le _ _) (Mem.read_lt m 2 _)) (by omega) (by omega) m
  have wide : ∀ {k : Nat}, k < numObjSlots → k < 8 * sizeofObjBitset :=
    fun below => below.trans_le (by decide)
  have set : bit m' (objAllocBitset p) slot = true := by
    rw [bits slot (wide bound), if_pos rfl]
  refine ⟨⟨?_, fun k high below => ?_, fun i below => ?_⟩, set⟩
  · have more : countBits m' (objAllocBitset p) 0 numObjSlots =
        countBits m (objAllocBitset p) 0 numObjSlots + 1 := by
      refine countBits_of_set bound (by rw [Nat.zero_add, clear]) (by rw [Nat.zero_add, set]) ?_
      intro j below different
      rw [Nat.zero_add, bits j (wide below), if_neg different]
    have some : countBits m' (objAllocBitset p) 0 numObjSlots ≤ numObjSlots := countBits_le ..
    rw [available, more]
    omega
  · rw [bits k below, if_neg (by omega)]
    exact kept.spare k high below
  · by_cases here : i = slot
    · rw [here]
      exact slotId
    · exact kept.slotId_apply (hdrAllocStores_within bound (name.bytes_length_le.trans (by decide)))
        below here

/-- Freeing a slot that is in use. -/
theorem SlotsKept.free (kept : SlotsKept m p) (bound : slot < numObjSlots)
    (set : bit m (objAllocBitset p) slot = true) :
    SlotsKept (m.apply (hdrFreeStores m p slot (m.read 2 (availableSlotsAddr p) + 1))) p := by
  have bits := @bit_hdrFreeStores m p slot (m.read 2 (availableSlotsAddr p) + 1)
  have wide : ∀ {k : Nat}, k < numObjSlots → k < 8 * sizeofObjBitset :=
    fun below => below.trans_le (by decide)
  -- the slot map does not depend on which headers are listed
  have map : SlotMap m [] p := ⟨by simp, kept.counted⟩
  refine ⟨(map.free bound set (by simp)).available, fun k high below => ?_, fun i below => ?_⟩
  · rw [bits below, if_neg (by omega)]
    exact kept.spare k high below
  · have place := objHeader_bounds (p := p) below
    refine Eq.trans (Mem.read_congr fun a low high => ?_) (kept.slotIds i below)
    unfold slotIdAddr at low high
    exact Mem.apply_of_not_covers (fun t member =>
      (hdrFreeStores_within bound t member).not_covers (.inr (by omega))) m

end Page

section Run

variable {r : RecordPage} {m : Mem}

/-- Recording in the log leaves the page. -/
theorem RecordPage.page_same (r : RecordPage) {m m' : Mem} (offLog : OffLog r.shmem.redolog m m') :
    ∀ a, r.page ≤ a → a < r.page + sizeofRecords → m' a = m a := fun a low high =>
  offLog a (by have := r.apart; omega)

/-- An entry about the page is recorded and executed. -/
theorem RecordPage.record_execute (r : RecordPage) {entry : LogEntry} (fits : entry.Fits)
    (curObjRecs : Option Nat) {stores : Mem → List Store}
    (executes : ∀ m', (executeEntry r.shmem.buddyAlloc curObjRecs entry).Returns m' (stores m')
      curObjRecs)
    (inPage : ∀ m', ∀ t ∈ stores m', t.Within r.page (r.page + sizeofRecords)) (m : Mem) :
    ∃ recorded, (setAll r.shmem.redolog 0 [entry]).Returns m recorded 1 ∧
      OffLog r.shmem.redolog m (m.apply recorded) ∧
      (executeLog r.shmem.buddyAlloc r.shmem.redolog 1 curObjRecs).Returns (m.apply recorded)
        (stores (m.apply recorded)) curObjRecs := by
  obtain ⟨recorded, returns, within, executed⟩ :=
    @setAll_executeLog r.shmem.redolog [entry] (by simpa using fits) (by simp [redologEntries]) m
  have both := executeEntries_cons (executes (m.apply recorded)) (executeEntries_nil _ _)
  rw [List.append_nil] at both
  refine ⟨recorded, returns, offLog_apply within m, ?_⟩
  refine (executed _ curObjRecs fun t member => ?_).trans both
  rw [both.stores_eq] at member
  have place := inPage _ t member
  have apart := r.apart
  unfold Store.Within at place
  unfold Store.Outside
  omega

theorem allocSlot_spec (kept : SlotsKept m r.page) {d : MetaDram}
    (isCur : d.curObjRecs = some r.page) (machineFits : d.machineId < 2 ^ 16)
    (available : 0 < m.read 2 (availableSlotsAddr r.page)) (objPtr length : UInt64)
    (progId : ProgId) :
    ∃ recorded, (recordObjHdrAlloc r.shmem d 0 objPtr.toNat length.toNat progId.toCString).Returns m
        recorded (some (objHeader r.page (firstClearSlot m r.page)), 1) ∧
      ∃ stores, (allocSlot r d objPtr length progId).Returns m stores d.curObjRecs ∧
        SlotsKept (m.apply stores) r.page ∧
        bit (m.apply stores) (objAllocBitset r.page) (firstClearSlot m r.page) = true := by
  obtain ⟨slotBound, clear⟩ := firstClearSlot_spec kept.counted available
  have pageBound := r.bound
  have objFits := objPtr.toNat_lt
  have lengthFits := length.toNat_lt
  have countFits := Mem.read_lt m 2 (availableSlotsAddr r.page)
  have slotFits := slotBound
  unfold sizeofRecords at pageBound
  unfold numObjSlots at slotFits
  have fits : (slotEntry m r.page d.machineId objPtr.toNat length.toNat progId.toCString).Fits :=
    ⟨by omega, by omega, by omega, by omega, by omega, progId.isProgId, by omega⟩
  obtain ⟨recorded, returns, offLog, executed⟩ := r.record_execute fits d.curObjRecs
    (fun m' => executeEntry_objHdrAlloc m' _ _ _ _ _ _ _ r.notNull)
    (fun m' t member => by
      have place := objHeader_bounds (p := r.page) slotBound
      unfold sizeofRecords
      rcases hdrAllocStores_within slotBound (progId.bytes_length_le.trans (by decide)) t member
        with within | within
      · exact within.mono (by omega) (by omega)
      · exact within.mono (by omega) (by omega)) m
  have same := r.page_same offLog
  have bits : bit (m.apply recorded) (objAllocBitset r.page) (firstClearSlot m r.page) = false := by
    rw [bit_congr (same _ _ _), clear]
    · unfold objAllocBitset
      omega
    · unfold objAllocBitset sizeofRecords
      omega
  have count : (m.apply recorded).read 2 (availableSlotsAddr r.page) =
      m.read 2 (availableSlotsAddr r.page) :=
    Mem.read_congr fun a low high => same a (by unfold availableSlotsAddr at low; omega)
      (by unfold availableSlotsAddr at high; unfold sizeofRecords; omega)
  have filled := (kept.congr same).fill slotBound bits objFits lengthFits progId d.machineId
  rw [count] at filled
  have recording : (recordObjHdrAlloc r.shmem d 0 objPtr.toNat length.toNat
      progId.toCString).Returns m recorded
        (some (objHeader r.page (firstClearSlot m r.page)), 1) := by
    have both := returns.bind
      (f := fun pos => pure (some (objHeader r.page (firstClearSlot m r.page)), pos)) (.pure _ _)
    rw [List.append_nil] at both
    exact (recordObjHdrAlloc_slot isCur available 0 _ _ _).trans both
  refine ⟨recorded, recording, _, recording.bind executed, ?_⟩
  rw [Mem.apply_append]
  exact filled

theorem freeSlot_spec (kept : SlotsKept m r.page) {slot : Nat} (bound : slot < numObjSlots)
    (set : bit m (objAllocBitset r.page) slot = true) :
    ∃ stores, (freeSlot r slot).Returns m stores (some r.page) ∧
      SlotsKept (m.apply stores) r.page := by
  have pageBound := r.bound
  have countFits : m.read 2 (availableSlotsAddr r.page) ≤ numObjSlots := by
    have := kept.counted
    omega
  have slotFits := bound
  unfold sizeofRecords at pageBound
  unfold numObjSlots at countFits slotFits
  have fits : (LogEntry.objHdrFree r.page slot (m.read 2 (availableSlotsAddr r.page) + 1)).Fits :=
    ⟨by omega, by omega, by omega⟩
  obtain ⟨recorded, returns, offLog, executed⟩ := r.record_execute fits (some r.page)
    (fun m' => executeEntry_objHdrFree m' _ _ _ r.notNull)
    (fun m' t member => (hdrFreeStores_within bound t member).mono (by omega)
      (by unfold sizeofRecords; omega)) m
  have same := r.page_same offLog
  have bits : bit (m.apply recorded) (objAllocBitset r.page) slot = true := by
    rw [bit_congr (same _ _ _), set]
    · unfold objAllocBitset
      omega
    · unfold objAllocBitset sizeofRecords
      omega
  have count : (m.apply recorded).read 2 (availableSlotsAddr r.page) =
      m.read 2 (availableSlotsAddr r.page) :=
    Mem.read_congr fun a low high => same a (by unfold availableSlotsAddr at low; omega)
      (by unfold availableSlotsAddr at high; unfold sizeofRecords; omega)
  have freed := (kept.congr same).free bound bits
  rw [count] at freed
  have recording : (recordObjHdrFree r.shmem 0 (objHeader r.page slot)).Returns m recorded 1 := by
    exact (recordObjHdrFree_eq r.notNull r.lt_size (kept.slotIds slot bound) rfl (by omega) 0).trans
      returns
  refine ⟨_, recording.bind executed, ?_⟩
  rw [Mem.apply_append]
  exact freed

/-- A step keeps the page. -/
theorem SlotsKept.step (kept : SlotsKept m r.page) {action : SlotAction} {next : Mem}
    (transition : slotStep r m action = some next) : SlotsKept next r.page := by
  cases action with
  | alloc d objPtr length progId =>
      rw [slotStep] at transition
      split at transition
      · rename_i allowed
        obtain ⟨isCur, machineFits, available⟩ := allowed
        obtain ⟨_, _, stores, returns, after, _⟩ :=
          allocSlot_spec kept isCur machineFits available objPtr length progId
        rw [returns.run_eq] at transition
        obtain rfl := Option.some.inj transition
        exact after
      · exact absurd transition (by simp)
  | free slot =>
      rw [slotStep] at transition
      split at transition
      · rename_i inUse
        rw [bitsetTest_eq] at inUse
        obtain ⟨stores, returns, after⟩ := freeSlot_spec kept slot.isLt inUse
        rw [returns.run_eq] at transition
        obtain rfl := Option.some.inj transition
        exact after
      · exact absurd transition (by simp)

end Run

/-- In every run on a page an allocation takes a slot that was clear and sets it, every
operation completes, `available_slots` is the number of clear slots, the bits behind the
slots stay clear, and every header has its index as slot id and is mapped back to the page. -/
theorem slots_never_double_booked (r : RecordPage) (prior : Mem) {m : Mem}
    (reached : (slotMachine r prior).Reachable (fun _ _ _ => True) m) :
    (∀ d objPtr length progId, d.curObjRecs = some r.page → d.machineId < 2 ^ 16 →
      0 < m.read 2 (availableSlotsAddr r.page) →
      ∃ slot recorded redologPos next, slot < numObjSlots ∧
        bit m (objAllocBitset r.page) slot = false ∧
        (recordObjHdrAlloc r.shmem d 0 objPtr.toNat length.toNat progId.toCString).Returns m
          recorded (some (objHeader r.page slot), redologPos) ∧
        slotStep r m (.alloc d objPtr length progId) = some next ∧
        bit next (objAllocBitset r.page) slot = true) ∧
    (∀ slot : Fin numObjSlots, bit m (objAllocBitset r.page) slot = true →
      (slotStep r m (.free slot)).isSome) ∧
    m.read 2 (availableSlotsAddr r.page) =
      numObjSlots - countBits m (objAllocBitset r.page) 0 numObjSlots ∧
    (∀ k, numObjSlots ≤ k → k < 8 * sizeofObjBitset → bit m (objAllocBitset r.page) k = false) ∧
    ∀ i, i < numObjSlots → m.read 2 (slotIdAddr (objHeader r.page i)) = i ∧
      getObjAllocationRecordsOffset m (objHeader r.page i) = r.page := by
  have fresh : SlotsKept (slotMachine r prior).initial r.page := by
    rw [slotMachine_initial]
    exact slotsKept_init prior r.page
  have kept : SlotsKept m r.page :=
    @Machine.Reachable.invariant _ _ _ _ (fun m => SlotsKept m r.page) fresh
      (fun kept transition _ => kept.step transition) _ reached
  refine ⟨fun d objPtr length progId isCur machineFits available => ?_, fun slot inUse => ?_,
    by have := kept.counted; omega, kept.spare, fun i bound =>
      ⟨kept.slotIds i bound, getObjAllocationRecordsOffset_eq r.lt_size (kept.slotIds i bound)⟩⟩
  · obtain ⟨slotBound, clear⟩ := firstClearSlot_spec kept.counted available
    obtain ⟨recorded, recording, stores, returns, _, set⟩ :=
      allocSlot_spec kept isCur machineFits available objPtr length progId
    refine ⟨_, recorded, 1, m.apply stores, slotBound, clear, recording, ?_, set⟩
    rw [slotStep, if_pos ⟨isCur, machineFits, available⟩, returns.run_eq]
    rfl
  · obtain ⟨stores, returns, _⟩ := freeSlot_spec kept slot.isLt inUse
    rw [slotStep, bitsetTest_eq, if_pos inUse, returns.run_eq]
    rfl

/-- A page at 20480 and a log behind it. -/
def smallPage : RecordPage where
  shmem := ⟨65536, threeBlocks⟩
  page := 20480
  notNull := by decide
  bound := by decide
  apart := by decide

/-- Two allocations and a free of the first. -/
def threeOperations : List SlotAction :=
  [.alloc ⟨0, 65536, 1, some 20480⟩ 4096 8 ⟨⟨[97], by decide⟩, by decide⟩,
    .alloc ⟨0, 65536, 2, some 20480⟩ 8192 8 ⟨⟨[98], by decide⟩, by decide⟩, .free ⟨0, by decide⟩]

theorem slots_never_double_booked_threeOperations :
    ((slotMachine smallPage fun _ => 255).final threeOperations).read 2
        (availableSlotsAddr smallPage.page) =
      numObjSlots - countBits ((slotMachine smallPage fun _ => 255).final threeOperations)
        (objAllocBitset smallPage.page) 0 numObjSlots :=
  (slots_never_double_booked smallPage (fun _ => 255)
    (Machine.reachable_final (fun _ _ _ => true) (fun _ _ _ _ => trivial) threeOperations
      (by decide +kernel))).2.2.1

end Lupin.Alloc
