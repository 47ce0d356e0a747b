import Lupin.Alloc.Filling

/-!
# What a mapping has room for

A mapping that has just been set up serves as many requests as there are places and slots for. With
the record page full the next one needs a block and a page, and `buddy_malloc_find_pos` looks for
both in the same tree: requests of the size of a page get the page.
-/

namespace Lupin.Alloc

open Lupin.Memory Lupin.HeapIndex Lupin.LevelTree Lupin.Buddy Lupin.Log Lupin.LinkedList
  Lupin.Transition

section Collision

variable {s : Mapping} {g : Setting} {m : Mem} {cur : UInt16 → Option Nat} {ledger : Ledger}
  {pages headers : List Nat} {live : List (Nat × Nat)} {machine : UInt16} {d : MetaDram}
  {length : Nat} {state : State}

/-- Requests of one size class find the same position. -/
theorem buddyMallocFindPos_of_sizeClass {b : BuddyAlloc} {length' : Nat} (positive : 0 < length)
    (positive' : 0 < length') (fits : length ≤ b.memorySize) (fits' : length' ≤ b.memorySize)
    (sameClass : depthForSize b length = depthForSize b length') (m : Mem) :
    buddyMallocFindPos b m length = buddyMallocFindPos b m length' := by
  unfold buddyMallocFindPos
  rw [if_neg positive.ne', if_neg positive'.ne']
  dsimp only
  rw [if_neg (not_lt.mpr fits), if_neg (not_lt.mpr fits'), sameClass]

/-- With the page full, a request of the size class of a page gets the block of the next page. -/
theorem Consistent.collides (consistent : Consistent s m cur ledger pages headers live)
    (on : Joined s cur machine d) {p : Nat} (isCur : d.curObjRecs = some p)
    (full : m.read 2 (availableSlotsAddr p) = 0) (samePos : s.pos m length = s.pos m sizeofRecords)
    (hasBlock : s.HasBlock m length) (name : ProgId) :
    ∃ stores, (atomicAllocateMemoryLockheld s.shmem d length name.toCString).Returns m stores
        (.ok (s.block m length), some (s.block m length)) ∧
      Placed s m (m.apply stores) pages (pages ++ [s.block m length]) headers
        (objHeader (s.block m length) 0) ⟨s.block m length, length, name⟩ d.machineId := by
  have member : p ∈ pages := consistent.current machine p (on.curObjRecs ▸ isCur)
  have onMachine : OnMachine s d p := ⟨on.memLength, on.machineId ▸ machine.toNat_lt, isCur⟩
  have sameBlock : s.block m length = s.block m sizeofRecords := by
    rw [Mapping.block, samePos, Mapping.block]
  have page : s.HasBlock m sizeofRecords := by
    rw [Mapping.HasBlock, ← samePos]
    exact hasBlock
  have recording := consistent.sound.recording onMachine member hasBlock (fun _ => page)
    (name.short.le.trans (Nat.le_add_right _ _))
  obtain ⟨_, _, _, returns, _, _, _, _, _, _, placed⟩ := recording.allocates consistent.sound.shape
    member fun _ => consistent.sound.pagesAt page
  have none : ¬ 0 < m.read 2 (availableSlotsAddr p) := by omega
  have isNew : newCur s m p = s.block m length := (if_neg none).trans sameBlock.symm
  have isHeader : newHeader s m p = objHeader (s.block m length) 0 := by
    rw [newHeader, if_neg none, sameBlock]
  have isPages : newPages s m p pages = pages ++ [s.block m length] := by
    rw [newPages, if_neg none, sameBlock]
  rw [isNew] at returns
  rw [isHeader, isPages] at placed
  exact ⟨_, returns, placed⟩

end Collision

section Runs

variable {g : Setting} {buddySize : Nat} {first machine : UInt16} {prior : Mem} {length : Nat}
  {state : State}

/-- A mapping that has just been set up serves as many requests of one length as its arena has
places for and the record page has slots for, whatever their names. -/
theorem fresh_mapping_serves
    (accepted : metaShmemOf g.memLength = some (g.shmem, buddySize)) (bound : g.memLength ≤ 2 ^ 62)
    (first : UInt16) (prior : Mem) (large : length ≤ blockSize g.shmem.buddyAlloc length)
    (names : List ProgId) (slots : names.length ≤ numObjSlots)
    (fits : names.length * blockSize g.shmem.buddyAlloc length ≤ g.shmem.buddyAlloc.memorySize) :
    ∃ state, (g.machine buddySize first prior).runFrom (g.machine buddySize first prior).initial
        (requests first length names) = some state ∧
      state.ledger.held.map (fun object => (object.length, object.name)) =
        names.reverse.map fun name => (length, name) := by
  obtain ⟨_, state, _, ran, _, filled, named⟩ :=
    filled_of_accepted (fun _ _ _ _ _ _ _ allowed => allowed : g.Requests first length names
      g.Orderly) accepted bound prior large slots fits
  refine ⟨state, ran, ?_⟩
  rw [← named, List.map_map]
  exact List.map_congr_left fun object isHeld =>
    Prod.ext (filled.lengths object isHeld) rfl

/-- In every state of an orderly run with the lock free: a machine whose record page is full serves
a request of the size class of a page with the block of the page it takes for the record. The
client's region is the page, with the region's own header at its start. -/
theorem region_is_record_page
    (accepted : metaShmemOf g.memLength = some (g.shmem, buddySize)) (bound : g.memLength ≤ 2 ^ 62)
    (located : Layout.recoverMetaAddress g.memLength = some g.shmem.base)
    (reached : (g.machine buddySize first prior).Reachable g.Orderly state)
    (alive : state.dead = none) {p : Nat} (isCur : state.cur machine = some p)
    (full : state.mem.read 2 (availableSlotsAddr p) = 0) (positive : 0 < length)
    (sameClass : depthForSize g.shmem.buddyAlloc length =
      depthForSize g.shmem.buddyAlloc sizeofRecords)
    (room : sizeofRecords ≤ g.shmem.buddyAlloc.memorySize)
    (hasBlock : g.hasBlock state.mem length = true) (name : ProgId) :
    ∃ next, g.step state (.call machine (.allocate length name)) = some next ∧
      next.ledger.held = ⟨g.block state.mem length, length, name⟩ :: state.ledger.held ∧
      next.cur machine = some (g.block state.mem length) ∧
      next.mem.read 8 (peTail g.shmem.objHeaders) = objHeader (g.block state.mem length) 0 ∧
      ObjectAt next.mem (objHeader (g.block state.mem length) 0)
        ⟨g.block state.mem length, length, name⟩ := by
  obtain ⟨s, on, _, pages, headers, live, consistent, _, now⟩ :=
    accounted_of_reachable accepted bound located reached
  obtain rfl := now alive
  rw [on.hasBlock_iff] at hasBlock
  obtain ⟨_, fits, _⟩ := consistent.sound.found hasBlock
  rw [on.shmem, s.buddyAlloc_eq] at sameClass room
  have samePos : s.pos state.mem length = s.pos state.mem sizeofRecords :=
    buddyMallocFindPos_of_sizeClass positive (by decide) fits room sameClass state.mem
  obtain ⟨stores, returns, placed⟩ := consistent.collides (on.joined state machine) isCur full
    samePos hasBlock name
  have isBlock : g.block state.mem length = s.block state.mem length := by
    rw [Setting.block, on.shmem]
    rfl
  rw [← on.shmem] at returns
  rw [isBlock]
  exact ⟨_, step_allocate alive returns, rfl, Function.update_self .., on.shmem ▸ placed.tail,
    placed.object⟩

/-- The names of as many requests as a page has slots. -/
def sampleNames : List ProgId := List.replicate numObjSlots sampleName

theorem length_sampleNames : sampleNames.length = numObjSlots := List.length_replicate ..

theorem fresh_mapping_serves_page : ∃ state,
    (wideSetting.machine 1800 1 fun _ => 0).runFrom (wideSetting.machine 1800 1 fun _ => 0).initial
        (requests 1 16384 sampleNames) = some state ∧ state.ledger.held.length = 340 := by
  obtain ⟨state, ran, held⟩ := fresh_mapping_serves wideSetting_accepted (by decide) 1 (fun _ => 0)
    (by decide : 16384 ≤ blockSize wideSetting.shmem.buddyAlloc 16384) sampleNames
    length_sampleNames.le (by rw [length_sampleNames]; decide)
  refine ⟨state, ran, ?_⟩
  have lengths := congrArg List.length held
  rw [List.length_map, List.length_map, List.length_reverse] at lengths
  exact lengths.trans length_sampleNames

/-- The wide mapping with its record page full, and blocks left. -/
theorem wideSetting_full {guard : Guard State Action}
    {names : List ProgId} (admits : wideSetting.Requests 1 16384 names guard)
    (all : names.length = numObjSlots) :
    ∃ s state, wideSetting.On s ∧
      (wideSetting.machine 1800 1 fun _ => 0).runFrom
        (wideSetting.machine 1800 1 fun _ => 0).initial (requests 1 16384 names) = some state ∧
      (wideSetting.machine 1800 1 fun _ => 0).Reachable guard state ∧
      Filling s 1 16384 state ∧ state.mem.read 2 (availableSlotsAddr firstRecords) = 0 ∧
      wideSetting.hasBlock state.mem 16384 = true := by
  obtain ⟨s, state, on, ran, reached, filled, named⟩ := filled_of_accepted admits
    wideSetting_accepted (by decide) (fun _ => 0)
    (by decide : 16384 ≤ blockSize wideSetting.shmem.buddyAlloc 16384) all.le
    (by rw [all]; decide)
  have arena : wideSetting.shmem.buddyAlloc = s.arena.toBuddyAlloc := by
    rw [on.shmem, s.buddyAlloc_eq]
  have held : state.ledger.held.length = numObjSlots := by
    have lengths := congrArg List.length named
    rwa [List.length_map, List.length_reverse, all] at lengths
  have slots := filled.slots
  exact ⟨s, state, on, ran, reached, filled, by omega, (on.hasBlock_iff _ _).mpr
    (filled.hasBlock (by rw [← arena]; decide) (by rw [held, ← arena]; decide))⟩

theorem region_is_record_page_first : ∃ state next p,
    (wideSetting.machine 1800 1 fun _ => 0).Reachable wideSetting.Orderly state ∧
      wideSetting.step state (.call 1 (.allocate 16384 sampleName)) = some next ∧
      next.ledger.held = ⟨p, 16384, sampleName⟩ :: state.ledger.held ∧ next.cur 1 = some p := by
  obtain ⟨_, state, _, _, reached, filled, full, hasBlock⟩ :=
    wideSetting_full (fun _ _ _ _ _ _ _ allowed => allowed) length_sampleNames
  obtain ⟨next, transition, grown, isCur, _⟩ := region_is_record_page wideSetting_accepted
    (by decide) wideSetting_located reached filled.alive filled.isCur full (by decide : 0 < 16384)
    rfl (by decide : sizeofRecords ≤ 8286208) hasBlock sampleName
  exact ⟨state, next, _, reached, transition, grown, isCur⟩

end Runs

end Lupin.Alloc
