import Lupin.Alloc.Record

/-!
# Executing an allocation

What `execute_log` makes of the entries of an allocation, from any memory that has the
shape of the allocator's.
-/

namespace Lupin.Alloc

open Lupin.Memory Lupin.HeapIndex Lupin.LevelTree Lupin.Buddy Lupin.Log Lupin.LinkedList

/-- Stores to pages and queues, not to the log or the tree. -/
def Mapping.Proper (s : Mapping) (stores : List Store) : Prop :=
  ∀ t ∈ stores, t.Within firstRecords s.base ∨ t.Within (s.base + 560) (s.base + 592)

/-- The slots a page has left; those of a page that is still to be set up are all clear. -/
def slotsLeft (m : Mem) (pages : List Nat) (p : Nat) : Nat :=
  if p ∈ pages then m.read 2 (availableSlotsAddr p) else numObjSlots

/-- An object with a header of its own: where an allocation has put it, and what it has left
alone. -/
structure Placed (s : Mapping) (m m' : Mem) (pages pages' headers : List Nat) (h : Nat)
    (object : Object) (machineId : Nat) : Prop where
  shape : Shape s m' pages' (appendBehind headers (m.read 8 (peTail s.shmem.objHeaders)) h)
  fresh : h ∉ headers
  inPage : InPage pages' h
  object : ObjectAt m' h object
  machineId : m'.read 2 (machineIdAddr h) = machineId
  tail : m'.read 8 (peTail s.shmem.objHeaders) = h
  others : ∀ x, InPage pages x → x ≠ h → ∀ a, x + 16 ≤ a → a < x + 48 → m' a = m a
  slots : ∀ p ∈ pages', ∀ slot < numObjSlots, h = objHeader p slot →
    m'.read 2 (availableSlotsAddr p) = slotsLeft m pages p - 1

section Place

variable {s : Mapping} {m m' : Mem} {pages headers : List Nat} {p slot : Nat}

theorem linkStores_congr {lq : Nat} (first : m'.read 8 (peFirst lq) = m.read 8 (peFirst lq))
    (tail : m'.read 8 (peTail lq) = m.read 8 (peTail lq)) (h : Nat) :
    linkStores m' lq h = linkStores m lq h := by
  unfold linkStores
  rw [first, tail]

theorem hdrAllocStores_machineId {objPtr length availableSlots machineId : Nat}
    (bound : slot < numObjSlots) (name : ProgId) (fits : machineId < 2 ^ 16) (m : Mem) :
    (m.apply (hdrAllocStores m p objPtr length slot availableSlots name.bytes machineId)).read 2
      (machineIdAddr (objHeader p slot)) = machineId := by
  rw [apply_hdrAllocStores]
  exact Mem.read_apply_of_mem (hdrAllocParts_apart bound name.bytes_length_le)
    (by simp [hdrAllocParts]) (by omega) m

/-- A filled and linked header. -/
theorem Shape.place (shape : Shape s m pages headers) (member : p ∈ pages)
    (bound : slot < numObjSlots) (clear : bit m (objAllocBitset p) slot = false) (object : Object)
    (offsetFits : object.offset < 256 ^ 8) (lengthFits : object.length < 256 ^ 8) {machineId : Nat}
    (machineFits : machineId < 2 ^ 16) {recorded : Mem}
    (first : recorded.read 8 (peFirst s.shmem.objHeaders) = m.read 8 (peFirst s.shmem.objHeaders))
    (tail : recorded.read 8 (peTail s.shmem.objHeaders) = m.read 8 (peTail s.shmem.objHeaders))
    (b : BuddyAlloc) (curObjRecs : Option Nat) :
    ∃ stores, (executeEntries b (.objHdrAlloc p object.offset object.length slot
          (m.read 2 (availableSlotsAddr p) - 1) object.name.bytes machineId ::
        appendEntries recorded s.shmem.objHeaders (objHeader p slot)) curObjRecs).Returns m stores
        curObjRecs ∧
      s.Proper stores ∧
      Placed s m (m.apply stores) pages pages headers (objHeader p slot) object machineId := by
  have pagesAt := shape.pagesAt
  have pBounds := pagesAt.bounds member
  have hBounds := objHeader_bounds (p := p) bound
  have inPage : InPage pages (objHeader p slot) := ⟨p, member, slot, bound, rfl⟩
  have notListed := shape.not_listed member bound clear
  obtain ⟨filledShape, available, slotId, objectAt, map⟩ :=
    shape.fill member bound clear object offsetFits lengthFits machineId
  have machine := @hdrAllocStores_machineId p slot object.offset object.length
    (m.read 2 (availableSlotsAddr p) - 1) machineId bound object.name machineFits m
  have within := @hdrAllocStores_within m p slot object.offset object.length
    (m.read 2 (availableSlotsAddr p) - 1) machineId object.name.bytes bound
    (object.name.bytes_length_le.trans (by decide))
  have executed := executeEntry_objHdrAlloc (b := b) m curObjRecs object.offset object.length slot
    (m.read 2 (availableSlotsAddr p) - 1) object.name.bytes machineId (by omega : p ≠ 0)
  generalize hdrAllocStores m p object.offset object.length slot
    (m.read 2 (availableSlotsAddr p) - 1) object.name.bytes machineId = fill at *
  -- the queue is as it was when the entries were recorded
  have queue : ∀ {n a : Nat}, s.base ≤ a → (m.apply fill).read n a = m.read n a := fun above =>
    Mem.read_congr fun a low _ => Mem.apply_of_not_covers (fun t stored => by
      rcases within t stored with inMap | inHeader
      · exact inMap.not_covers (.inr (by omega))
      · exact inHeader.not_covers (.inr (by omega))) m
  have sameLinks : linkStores recorded s.shmem.objHeaders (objHeader p slot) =
      linkStores (m.apply fill) s.shmem.objHeaders (objHeader p slot) := by
    refine linkStores_congr (first.trans (queue ?_).symm) (tail.trans (queue ?_).symm) _
    · rw [s.objHeaders_eq]
      unfold peFirst
      omega
    · rw [s.objHeaders_eq]
      unfold peTail
      omega
  have sameTail : (m.apply fill).read 8 (peTail s.shmem.objHeaders) =
      m.read 8 (peTail s.shmem.objHeaders) := queue (by rw [s.objHeaders_eq]; unfold peTail; omega)
  have maps : ∀ q ∈ pages, SlotMap (m.apply fill) (objHeader p slot :: headers) q := by
    intro q qMember
    by_cases here : q = p
    · rw [here]
      exact map
    · refine (filledShape.maps q qMember).congr (fun _ _ _ => rfl) fun i below onList => ?_
      refine (List.mem_cons.mp onList).resolve_left fun same => here ?_
      exact (pagesAt.header_inj qMember member below bound same).1
  obtain ⟨linkedShape, newTail, kept, keptPage⟩ :=
    filledShape.link ⟨p, member, slot, bound, rfl, slotId⟩ notListed maps
  rw [sameTail] at linkedShape
  rw [← sameLinks] at linkedShape newTail kept keptPage
  have nonempty : recorded.read 8 (peFirst s.shmem.objHeaders) ≠ 0 → headers ≠ [] := by
    rintro notEmpty rfl
    exact notEmpty (first.trans shape.headerList.first)
  have linked := executeEntries_link (b := b) curObjRecs (by omega : objHeader p slot ≠ 0)
    (by rw [s.objHeaders_eq]; omega : s.shmem.objHeaders ≠ 0) (fun notEmpty => by
      rw [tail]
      have := pagesAt.header_bounds (shape.tailIn (nonempty notEmpty))
      omega) (m.apply fill)
  have body : ∀ a, objHeader p slot + 16 ≤ a → a < objHeader p slot + 48 →
      (m.apply fill).apply (linkStores recorded s.shmem.objHeaders (objHeader p slot)) a =
        m.apply fill a := fun a low high => kept _ inPage a low high
  refine ⟨fill ++ linkStores recorded s.shmem.objHeaders (objHeader p slot),
    executeEntries_cons executed linked, ?_, ?_⟩
  · simp only [Mapping.Proper, List.forall_mem_append]
    refine ⟨fun t stored => ?_, fun t stored => ?_⟩
    · refine .inl ?_
      rcases within t stored with inMap | inHeader
      · exact inMap.mono (by unfold firstRecords Layout.futexAddrQueueSize; omega) (by omega)
      · exact inHeader.mono (by unfold firstRecords Layout.futexAddrQueueSize; omega) (by omega)
    · rcases linkStores_within t stored with atHeader | atQueue | ⟨notEmpty, atTail⟩
      · exact .inl (atHeader.mono (by unfold firstRecords Layout.futexAddrQueueSize; omega)
          (by omega))
      · rw [s.objHeaders_eq] at atQueue
        exact .inr (atQueue.mono (by omega) (by omega))
      · have tailBounds := pagesAt.header_bounds (shape.tailIn (nonempty notEmpty))
        rw [tail] at atTail
        exact .inl (atTail.mono (by unfold firstRecords Layout.futexAddrQueueSize; omega)
          (by omega))
  · rw [Mem.apply_append]
    refine ⟨linkedShape, notListed, inPage, objectAt.congr body, ?_, newTail, ?_, ?_⟩
    · refine Eq.trans (Mem.read_congr fun a low high => body a ?_ ?_) machine
      · unfold machineIdAddr at low
        omega
      · unfold machineIdAddr at high
        omega
    · intro x xIn different a low high
      rw [kept x xIn a low high]
      have fromHeader := (pagesAt.apart_or_eq xIn inPage).resolve_left different
      have fromPage := pagesAt.header_apart xIn member
      refine Mem.apply_of_not_covers (fun t stored => ?_) m
      rcases within t stored with inMap | inHeader
      · exact inMap.not_covers (by omega)
      · exact inHeader.not_covers (by omega)
    · intro q qMember i below same
      obtain ⟨rfl, _⟩ := pagesAt.header_inj member qMember bound below same
      rw [slotsLeft, if_pos member, ← available]
      refine Mem.read_congr fun a low high => keptPage p member a ?_ ?_
      · unfold availableSlotsAddr at low
        omega
      · unfold availableSlotsAddr at high
        omega

/-- An object that was placed from a memory with the same headers. -/
theorem Placed.of_before {m₀ : Mem} {pages' : List Nat} {h : Nat} {object : Object}
    {machineId : Nat} (placed : Placed s m m' pages' pages' headers h object machineId)
    (tail : m.read 8 (peTail s.shmem.objHeaders) = m₀.read 8 (peTail s.shmem.objHeaders))
    (subset : ∀ p ∈ pages, p ∈ pages')
    (same : ∀ x, InPage pages x → ∀ a, x + 16 ≤ a → a < x + 48 → m a = m₀ a)
    (left : ∀ p ∈ pages', m.read 2 (availableSlotsAddr p) = slotsLeft m₀ pages p) :
    Placed s m₀ m' pages pages' headers h object machineId :=
  { placed with
    shape := tail ▸ placed.shape
    slots := fun p isPage slot below isHere => by
      rw [placed.slots p isPage slot below isHere, ← left p isPage, slotsLeft, if_pos isPage]
    others := fun x inPage different a low high =>
      (placed.others x (inPage.mono subset) different a low high).trans (same x inPage a low high) }

end Place

/-! ## The entries of an allocation -/

/-- The record pages after an allocation. -/
def newPages (s : Mapping) (m : Mem) (cur : Nat) (pages : List Nat) : List Nat :=
  if 0 < m.read 2 (availableSlotsAddr cur) then pages else pages ++ [s.block m sizeofRecords]

/-- The current page after an allocation. -/
def newCur (s : Mapping) (m : Mem) (cur : Nat) : Nat :=
  if 0 < m.read 2 (availableSlotsAddr cur) then cur else s.block m sizeofRecords

/-- The blocks an allocation takes. -/
def newBlocks (s : Mapping) (m : Mem) (cur length : Nat) : List (Nat × Nat) :=
  if 0 < m.read 2 (availableSlotsAddr cur) then [(s.block m length, length)]
  else [(s.block m sizeofRecords, sizeofRecords), (s.block m length, length)]

section Execute

variable {s : Mapping} {m m' : Mem} {pages headers : List Nat}

/-- Stores behind the bits of the tree. -/
def Mapping.InTree (s : Mapping) (stores : List Store) : Prop :=
  ∀ t ∈ stores, s.arena.tree.bits ≤ t.addr

theorem Mapping.Same.of_inTree {stores : List Store} (inTree : s.InTree stores) (m : Mem) :
    s.Same m (m.apply stores) := by
  have bits := s.bits_eq
  have outside : ∀ a, a < s.base + 592 → m.apply stores a = m a := fun a below =>
    Mem.apply_of_not_covers (fun t member covers => by
      have := inTree t member
      have := covers.1
      omega) m
  exact ⟨fun a _ high => outside a (by omega), fun a _ high => outside a high⟩

theorem Mapping.Proper.tree_same {stores : List Store} (proper : s.Proper stores) (m : Mem)
    {a : Nat} (inTree : s.arena.tree.bits ≤ a) : m.apply stores a = m a := by
  have bits := s.bits_eq
  refine Mem.apply_of_not_covers (fun t member => ?_) m
  rcases proper t member with inPages | inQueues
  · exact inPages.not_covers (.inr (by omega))
  · exact inQueues.not_covers (.inr (by omega))

/-- The execution does not write to the log. -/
def Mapping.SparesLog (s : Mapping) (stores : List Store) : Prop :=
  ∀ t ∈ stores, t.Outside s.shmem.redolog (entryAddr s.shmem.redolog redologEntries)

theorem Mapping.InTree.sparesLog {stores : List Store} (inTree : s.InTree stores) :
    s.SparesLog stores := by
  have bits := s.bits_eq
  intro t member
  have := inTree t member
  rw [s.logEnd_eq]
  exact .inr (by omega)

theorem Mapping.Proper.sparesLog {stores : List Store} (proper : s.Proper stores) :
    s.SparesLog stores := by
  intro t member
  rw [s.logEnd_eq, s.redolog_eq]
  rcases proper t member with inPages | inQueues
  · exact .inl inPages.2
  · exact .inr inQueues.1

/-- Taking a block that was found. -/
theorem Mapping.Finds.executes {length : Nat} (finds : s.Finds m length) (curObjRecs : Option Nat)
    (m' : Mem) :
    ∃ stores, (executeEntry s.shmem.buddyAlloc curObjRecs (.buddyAlloc (s.pos m length))).Returns m'
        stores curObjRecs ∧
      (buddyMallocApply s.arena.toBuddyAlloc (s.pos m length)).Returns m' stores
        (s.block m length) ∧ s.InTree stores := by
  obtain ⟨p, found, node⟩ := finds
  obtain ⟨stores, returns, inTree⟩ := @buddyMallocApply_returns s.arena.toBuddyAlloc p node m'
  rw [Mapping.block, found]
  refine ⟨stores, ?_, returns, inTree⟩
  rw [executeEntry, s.buddyAlloc_eq]
  have both := returns.bind (f := fun _ => pure curObjRecs) (.pure _ _)
  rwa [List.append_nil] at both

/-- A page is linked and initialised. -/
theorem Shape.addsPage (shape : Shape s m pages headers) {p : Nat}
    (pagesAt : PagesAt s (pages ++ [p])) {recorded : Mem}
    (first : recorded.read 8 (peFirst s.shmem.objAllocs) = m.read 8 (peFirst s.shmem.objAllocs))
    (tail : recorded.read 8 (peTail s.shmem.objAllocs) = m.read 8 (peTail s.shmem.objAllocs))
    (b : BuddyAlloc) (curObjRecs : Option Nat) :
    (executeEntries b (appendEntries recorded s.shmem.objAllocs p ++ [.initObjAllocRecs p])
      curObjRecs).Returns m (addPageStores s m p) (some p) ∧ s.Proper (addPageStores s m p) := by
  have pBounds := pagesAt.bounds (show p ∈ pages ++ [p] by simp)
  have lastBounds : 20480 ≤ m.read 8 (peTail s.shmem.objAllocs) ∧
      m.read 8 (peTail s.shmem.objAllocs) + 16384 ≤ s.base := by
    obtain ⟨front, last, rfl, isLast⟩ := shape.pageList.exists_last shape.firstPage
    rw [isLast]
    exact shape.pagesAt.bounds (by simp)
  have links := linkStores_congr first tail p
  have linked := executeEntries_link (b := b) curObjRecs (by omega : p ≠ 0)
    (by rw [s.objAllocs_eq]; omega : s.shmem.objAllocs ≠ 0) (fun _ => by rw [tail]; omega) m
  rw [links] at linked
  have init := executeEntries_cons (executeEntry_initObjAllocRecs (b := b)
    (m.apply (linkStores m s.shmem.objAllocs p)) curObjRecs (by omega : p ≠ 0))
    (executeEntries_nil _ _)
  rw [List.append_nil] at init
  refine ⟨executeEntries_concat linked init, ?_⟩
  · simp only [Mapping.Proper, addPageStores, List.forall_mem_append]
    refine ⟨fun t stored => ?_, fun t stored => ?_⟩
    · rcases linkStores_within t stored with atPage | atQueue | ⟨_, atTail⟩
      · exact .inl (atPage.mono (by unfold firstRecords Layout.futexAddrQueueSize; omega)
          (by omega))
      · rw [s.objAllocs_eq] at atQueue
        exact .inr (atQueue.mono (by omega) (by omega))
      · exact .inl (atTail.mono (by unfold firstRecords Layout.futexAddrQueueSize; omega)
          (by omega))
    · exact .inl ((initObjAllocationRecords_within t stored).mono
        (by unfold firstRecords Layout.futexAddrQueueSize; omega) (by omega))

/-- The entries about the tree come first in the log of an allocation. -/
def markEntries (s : Mapping) (m : Mem) (cur length : Nat) : List LogEntry :=
  .buddyAlloc (s.pos m length) ::
    if 0 < m.read 2 (availableSlotsAddr cur) then [] else [.buddyAlloc (s.pos m sizeofRecords)]

/-- What the execution of an allocation's log does: it takes the blocks, then it places the
object. -/
theorem Recording.executes {d : MetaDram} {cur length : Nat} {name : ProgId}
    (recording : Recording s d m cur length name.toCString) (shape : Shape s m pages headers)
    (member : cur ∈ pages)
    (pageFree : m.read 2 (availableSlotsAddr cur) = 0 →
      PagesAt s (pages ++ [s.block m sizeofRecords]))
    (offLog : OffLog s.shmem.redolog m m') :
    ∃ marks rest, (executeEntries s.shmem.buddyAlloc
        (allocEntries s m cur d.machineId length name.toCString) d.curObjRecs).Returns m'
        (marks ++ rest) (some (newCur s m cur)) ∧
      (executeEntries s.shmem.buddyAlloc (markEntries s m cur length) d.curObjRecs).Returns m' marks
        d.curObjRecs ∧
      s.InTree marks ∧ s.Proper rest ∧
      Placed s m (m'.apply (marks ++ rest)) pages (newPages s m cur pages) headers
        (newHeader s m cur) ⟨s.block m length, length, name⟩ d.machineId := by
  have high := s.base_high
  have objFits := recording.objectInside
  have lengthFits := recording.lengthFits
  have machineFits := recording.machine.machineId
  have isCur := recording.machine.curObjRecs
  obtain ⟨marks, marked, _, inTree⟩ := recording.object.executes d.curObjRecs m'
  have same := offLog.same.trans (Mapping.Same.of_inTree inTree m')
  have tailSame : ∀ {m'' : Mem}, s.Same m m'' → m''.read 8 (peTail s.shmem.objHeaders) =
      m.read 8 (peTail s.shmem.objHeaders) := fun same'' =>
    same''.read_queue (by rw [s.objHeaders_eq]; unfold peTail; omega)
      (by rw [s.objHeaders_eq]; unfold peTail; omega)
  have firstSame : ∀ {m'' : Mem}, s.Same m m'' → m''.read 8 (peFirst s.shmem.objHeaders) =
      m.read 8 (peFirst s.shmem.objHeaders) := fun same'' =>
    same''.read_queue (by rw [s.objHeaders_eq]; unfold peFirst; omega)
      (by rw [s.objHeaders_eq]; unfold peFirst; omega)
  by_cases available : 0 < m.read 2 (availableSlotsAddr cur)
  · -- the header goes to a clear slot of the current page
    simp only [allocEntries, headerEntries, newHeader, newPages, newCur, markEntries,
      if_pos available]
    obtain ⟨slotBound, clear⟩ := firstClearSlot_spec recording.counted available
    have curBounds := shape.pagesAt.bounds member
    have count : (m'.apply marks).read 2 (availableSlotsAddr cur) =
        m.read 2 (availableSlotsAddr cur) :=
      same.read_page (by unfold firstRecords Layout.futexAddrQueueSize availableSlotsAddr; omega)
        (by unfold availableSlotsAddr; omega)
    have stillClear : bit (m'.apply marks) (objAllocBitset cur) (firstClearSlot m cur) = false := by
      have slotFits := slotBound
      unfold numObjSlots at slotFits
      rw [bit_congr (same.page shape.pagesAt member _ _), clear]
      · unfold objAllocBitset
        omega
      · unfold objAllocBitset
        omega
    obtain ⟨stores, returns, proper, placed⟩ := (shape.congr same).place member slotBound stillClear
      ⟨s.block m length, length, name⟩ (by dsimp only; omega) (by dsimp only; omega) machineFits
      (firstSame same).symm
      (tailSame same).symm s.shmem.buddyAlloc d.curObjRecs
    rw [count] at returns
    rw [isCur] at marked returns ⊢
    have treeEntries := executeEntries_cons marked (executeEntries_nil _ _)
    rw [List.append_nil] at treeEntries
    refine ⟨marks, stores, executeEntries_cons marked returns, treeEntries, inTree, proper, ?_⟩
    · rw [Mem.apply_append]
      refine placed.of_before (tailSame same) (fun _ isPage => isPage)
        (fun x inPage a low high => same.header shape.pagesAt inPage (by omega) high)
        fun p isPage => ?_
      have := shape.pagesAt.bounds isPage
      rw [slotsLeft, if_pos isPage]
      exact same.read_page
        (by unfold firstRecords Layout.futexAddrQueueSize availableSlotsAddr; omega)
        (by unfold availableSlotsAddr; omega)
  · -- the header is the first of a new page
    simp only [allocEntries, headerEntries, newHeader, newPages, newCur, markEntries,
      if_neg available]
    have full : m.read 2 (availableSlotsAddr cur) = 0 := by omega
    have pagesAt := pageFree full
    obtain ⟨marks', marked', _, inTree'⟩ :=
      (recording.page full).executes d.curObjRecs (m'.apply marks)
    have same' := same.trans (Mapping.Same.of_inTree inTree' (m'.apply marks))
    generalize s.block m sizeofRecords = page at *
    have queueSame : ∀ {a : Nat}, s.base + 560 ≤ a → a + 8 ≤ s.base + 592 →
        ((m'.apply marks).apply marks').read 8 a = m.read 8 a := fun low below =>
      same'.read_queue low below
    have shape' := shape.congr same'
    obtain ⟨added, addedProper⟩ := shape'.addsPage pagesAt
      (queueSame (by rw [s.objAllocs_eq]; unfold peFirst; omega)
        (by rw [s.objAllocs_eq]; unfold peFirst; omega)).symm
      (queueSame (by rw [s.objAllocs_eq]; unfold peTail; omega)
        (by rw [s.objAllocs_eq]; unfold peTail; omega)).symm s.shmem.buddyAlloc d.curObjRecs
    obtain ⟨pageShape, count, clear, kept⟩ := shape'.addPage pagesAt
    have pageBounds := pagesAt.bounds (show page ∈ pages ++ [page] by simp)
    have keptQueue : ∀ {a : Nat}, s.base + 560 ≤ a → a + 8 ≤ s.base + 576 →
        (((m'.apply marks).apply marks').apply
          (addPageStores s ((m'.apply marks).apply marks') page)).read 8 a = m.read 8 a := by
      intro a low below
      refine Eq.trans (Mem.read_congr fun x above under => ?_) (queueSame low (by omega))
      refine kept x (by omega) (fun q qMember => ?_) (by omega)
      have := shape.pagesAt.bounds qMember
      omega
    have tailKept := keptQueue (a := peTail s.shmem.objHeaders)
      (by rw [s.objHeaders_eq]; unfold peTail; omega)
      (by rw [s.objHeaders_eq]; unfold peTail; omega)
    have firstKept := keptQueue (a := peFirst s.shmem.objHeaders)
      (by rw [s.objHeaders_eq]; unfold peFirst; omega)
      (by rw [s.objHeaders_eq]; unfold peFirst; omega)
    obtain ⟨stores, returns, proper, placed⟩ := pageShape.place (List.mem_append_right _ (by simp))
      (by decide : 0 < numObjSlots) (clear 0 (by decide)) ⟨s.block m length, length, name⟩
      (by dsimp only; omega) (by dsimp only; omega) machineFits firstKept.symm tailKept.symm
      s.shmem.buddyAlloc (some page)
    rw [count] at returns
    have whole := executeEntries_cons marked (executeEntries_cons marked'
      (executeEntries_concat added returns))
    have treeEntries := executeEntries_cons marked (executeEntries_cons marked'
      (executeEntries_nil _ _))
    rw [List.append_nil] at treeEntries
    refine ⟨marks ++ marks', addPageStores s ((m'.apply marks).apply marks') page ++ stores, ?_,
      treeEntries, ?_, ?_, ?_⟩
    · simpa only [List.append_assoc, List.cons_append, List.nil_append] using whole
    · simp only [Mapping.InTree, List.forall_mem_append]
      exact ⟨inTree, inTree'⟩
    · simp only [Mapping.Proper, List.forall_mem_append]
      exact ⟨addedProper, proper⟩
    · simp only [Mem.apply_append]
      have fromPage : ∀ q ∈ pages, q + 16384 ≤ page ∨ page + 16384 ≤ q := fun q qMember =>
        (List.pairwise_append.mp pagesAt.apart).2.2 q qMember page (by simp)
      refine placed.of_before tailKept (fun _ isPage => List.mem_append_left _ isPage)
        (fun x inPage a low under => ?_) fun q qMember => ?_
      · rw [← same'.header shape.pagesAt inPage (by omega) under]
        obtain ⟨q, qMember, slot, slotBound, rfl⟩ := inPage
        have qBounds := shape.pagesAt.bounds qMember
        have slotPlace := objHeader_bounds (p := q) slotBound
        have apart := fromPage q qMember
        refine kept a (by omega) (fun r rMember => ?_) (by omega)
        have := shape.pagesAt.eq_or_apart rMember qMember
        omega
      · unfold slotsLeft
        rcases List.mem_append.mp qMember with old | new
        · have qBounds := shape.pagesAt.bounds old
          have apart := fromPage q old
          rw [if_pos old, ← same'.read_page (a := availableSlotsAddr q)
            (by unfold firstRecords Layout.futexAddrQueueSize availableSlotsAddr; omega)
            (by unfold availableSlotsAddr; omega)]
          refine Mem.read_congr fun a low under => ?_
          unfold availableSlotsAddr at low under
          refine kept a (by omega) (fun r rMember => ?_) (by omega)
          have := shape.pagesAt.eq_or_apart rMember old
          omega
        · obtain rfl := List.mem_singleton.mp new
          have notOld : q ∉ pages := fun old => by
            have := fromPage q old
            omega
          rw [if_neg notOld, count]

/-- An allocation that is recorded, committed and executed. -/
theorem Recording.allocates {d : MetaDram} {cur length : Nat} {name : ProgId}
    (recording : Recording s d m cur length name.toCString) (shape : Shape s m pages headers)
    (member : cur ∈ pages)
    (pageFree : m.read 2 (availableSlotsAddr cur) = 0 →
      PagesAt s (pages ++ [s.block m sizeofRecords])) :
    ∃ logged marks rest, (atomicAllocateMemoryLockheld s.shmem d length name.toCString).Returns m
        (logged ++ (marks ++ rest)) (.ok (s.block m length), some (newCur s m cur)) ∧
      OffLog s.shmem.redolog m (m.apply logged) ∧
      Committed (m.apply logged) s.shmem.redolog
        (allocEntries s m cur d.machineId length name.toCString) ∧
      (executeEntries s.shmem.buddyAlloc (allocEntries s m cur d.machineId length name.toCString)
        d.curObjRecs).Returns (m.apply logged) (marks ++ rest) (some (newCur s m cur)) ∧
      (executeEntries s.shmem.buddyAlloc (markEntries s m cur length) d.curObjRecs).Returns
        (m.apply logged) marks d.curObjRecs ∧
      s.InTree marks ∧ s.Proper rest ∧
      Placed s m (m.apply (logged ++ (marks ++ rest))) pages (newPages s m cur pages) headers
        (newHeader s m cur) ⟨s.block m length, length, name⟩ d.machineId := by
  have few := length_allocEntries s m cur d.machineId length name.toCString
  have recordable := recording.allocEntries_recordable
  obtain ⟨logged, committing, within, committed⟩ :=
    @commitLog_logged s.shmem.redolog _ recordable few m
  rw [allocEntries_logged] at committed
  have offLog := offLog_apply within m
  obtain ⟨marks, rest, executed, marked, inTree, proper, placed⟩ :=
    recording.executes shape member pageFree offLog
  have readable : ∀ entry ∈ allocEntries s m cur d.machineId length name.toCString,
      entry.Readable := fun entry isEntry => (recordable entry isEntry).readable
  have whole : (executeLog s.shmem.buddyAlloc s.shmem.redolog
      ((allocEntries s m cur d.machineId length name.toCString).length + 1)
      d.curObjRecs).Returns (m.apply logged) (marks ++ rest) (some (newCur s m cur)) := by
    refine (committed.execute_eq readable few ?_).2.trans executed
    rw [executed.stores_eq]
    exact List.forall_mem_append.mpr ⟨inTree.sparesLog, proper.sparesLog⟩
  refine ⟨logged, marks, rest, ?_, offLog, committed, executed, marked, inTree, proper, ?_⟩
  · have both := whole.bind
      (f := fun cur => pure ((.ok (s.block m length), cur) : Except Int Nat × Option Nat))
      (.pure _ _)
    rw [List.append_nil] at both
    exact recording.atomicAllocateMemoryLockheld_eq.trans (committing.bind both)
  · rw [Mem.apply_append]
    exact placed

end Execute

/-! ## Sound states -/

/-- The state of the allocator between operations: the shape of pages and lists, a tree with
these blocks taken, and every record page but the first one of them. -/
structure Sound (s : Mapping) (m : Mem) (pages headers : List Nat) (live : List (Nat × Nat)) : Prop
    where
  shape : Shape s m pages headers
  tree : ∃ virtualSlots blocks : BlockSet s.arena.tree.order,
    CoversFrom virtualSlots (2 ^ (s.arena.tree.order - 1) + s.arena.blocks) ∧
      AllocInvariant s.arena virtualSlots ⟨m, live⟩ blocks
  pagesLive : ∀ p ∈ pages, p ≠ firstRecords → (p, sizeofRecords) ∈ live

/-- The blocks an allocation takes are there: one for the object and, where the current page is
full, one for a page, apart from it. -/
structure Room (s : Mapping) (m : Mem) (cur length : Nat) : Prop where
  object : s.HasBlock m length
  page : m.read 2 (availableSlotsAddr cur) = 0 → s.HasBlock m sizeofRecords
  apart : m.read 2 (availableSlotsAddr cur) = 0 →
    Apart (s.block m length) (blockSize s.arena.toBuddyAlloc length) (s.block m sizeofRecords)
      (blockSize s.arena.toBuddyAlloc sizeofRecords)

section Sound

variable {s : Mapping} {m m' : Mem} {pages headers : List Nat} {live : List (Nat × Nat)}
  {d : MetaDram} {cur length : Nat}

/-- A block that was found is one of the arena, apart from the live ones. -/
theorem Sound.found (sound : Sound s m pages headers live) (hasBlock : s.HasBlock m length) :
    s.Finds m length ∧ length ≤ s.arena.memorySize ∧ s.arena.main ≤ s.block m length ∧
      length ≤ blockSize s.arena.toBuddyAlloc length ∧
      s.block m length + blockSize s.arena.toBuddyAlloc length ≤ s.base ∧
      ∀ block ∈ live, Apart (s.block m length) (blockSize s.arena.toBuddyAlloc length) block.1
        (blockSize s.arena.toBuddyAlloc block.2) := by
  obtain ⟨virtualSlots, blocks, atEnd, invariant⟩ := sound.tree
  obtain ⟨p, found, at_, _, inside, apart⟩ := invariant.find atEnd hasBlock
  have isPos : s.pos m length = posOf p := found
  rw [Mapping.block, isPos]
  exact ⟨⟨p, isPos, at_.node⟩, at_.fits, at_.aligned.1, (le_max_left _ _).trans at_.large,
    inside.trans s.arena_end, apart⟩

/-- A block for a page is apart from the pages there are. -/
theorem Sound.pagesAt (sound : Sound s m pages headers live)
    (hasBlock : s.HasBlock m sizeofRecords) : PagesAt s (pages ++ [s.block m sizeofRecords]) := by
  obtain ⟨_, _, low, large, high, apart⟩ := sound.found hasBlock
  have main := s.main_eq
  have reserved : Layout.totalReserved = 98304 := rfl
  have first : firstRecords = 20480 := rfl
  have pagesAt := sound.shape.pagesAt
  refine ⟨?_, List.pairwise_append.mpr ⟨pagesAt.apart, List.pairwise_singleton _ _, ?_⟩⟩
  · simp only [List.forall_mem_append, List.forall_mem_singleton]
    exact ⟨pagesAt.inside, by omega, by omega⟩
  · intro p member q isNew
    obtain rfl := List.mem_singleton.mp isNew
    unfold PagesApart
    by_cases isFirst : p = firstRecords
    · unfold sizeofRecords at *
      omega
    · have fromPage := apart _ (sound.pagesLive p member isFirst)
      unfold Apart at fromPage
      dsimp only at fromPage
      omega

theorem Sound.recording (sound : Sound s m pages headers live) (machine : OnMachine s d cur)
    (member : cur ∈ pages) (object : s.HasBlock m length)
    (page : m.read 2 (availableSlotsAddr cur) = 0 → s.HasBlock m sizeofRecords) {progId : CString}
    (short : progId.chars.length ≤ progIdSize + 1) : Recording s d m cur length progId := by
  obtain ⟨finds, fits, _, _, inside, _⟩ := sound.found object
  have memory := s.arena.memorySize_le
  refine ⟨machine, sound.shape.pagesAt.inside cur member, (sound.shape.maps cur member).available,
    finds, by omega, fun full => (sound.found (page full)).1, fun full => ?_, by omega, short⟩
  obtain ⟨_, _, low, large, high, _⟩ := sound.found (page full)
  exact ⟨low, by omega⟩

/-- Marking the blocks of an allocation takes them. -/
theorem markEntries_invariant {virtualSlots blocks : BlockSet s.arena.tree.order}
    (invariant : AllocInvariant s.arena virtualSlots ⟨m', live⟩ blocks)
    (atEnd : CoversFrom virtualSlots (2 ^ (s.arena.tree.order - 1) + s.arena.blocks))
    (offLog : OffLog s.shmem.redolog m m') (room : Room s m cur length) {curObjRecs : Option Nat}
    {marks : List Store}
    (returns : (executeEntries s.shmem.buddyAlloc (markEntries s m cur length)
      curObjRecs).Returns m' marks curObjRecs) :
    ∃ blocks', AllocInvariant s.arena virtualSlots
      ⟨m'.apply marks, newBlocks s m cur length ++ live⟩ blocks' := by
  have found : ∀ {n : Nat}, s.HasBlock m n → ∃ p, s.pos m n = posOf p ∧
      BlockAt s.arena p (s.block m n, n) ∧ blocks.Vacant p := by
    intro n hasBlock
    rw [Mapping.HasBlock, ← offLog.pos_eq] at hasBlock
    obtain ⟨p, isPos, at_, vacant, _⟩ := invariant.find atEnd hasBlock
    have here : s.pos m n = posOf p := (offLog.pos_eq n).symm.trans isPos
    rw [Mapping.block, here]
    exact ⟨p, rfl, at_, vacant⟩
  have executes : ∀ {n p : Nat} {m'' : Mem} {stores : List Store}, s.pos m n = posOf p →
      (buddyMallocApply s.arena.toBuddyAlloc (posOf p)).Returns m'' stores (s.block m n) →
      (executeEntry s.shmem.buddyAlloc curObjRecs (.buddyAlloc (s.pos m n))).Returns m'' stores
        curObjRecs := by
    intro n p m'' stores isPos applied
    rw [executeEntry, s.buddyAlloc_eq, isPos]
    have both := applied.bind (f := fun _ => pure curObjRecs) (.pure _ _)
    rwa [List.append_nil] at both
  obtain ⟨p, isPos, at_, vacant⟩ := found room.object
  obtain ⟨stores, applied, after, _⟩ := invariant.mark at_ vacant
  have first := executes isPos applied
  unfold markEntries at returns
  unfold newBlocks
  by_cases available : 0 < m.read 2 (availableSlotsAddr cur)
  · rw [if_pos available] at returns ⊢
    obtain ⟨rfl, _⟩ := returns.unique (executeEntries_cons first (executeEntries_nil _ _))
    rw [List.append_nil]
    exact ⟨_, after⟩
  · have full : m.read 2 (availableSlotsAddr cur) = 0 := by omega
    rw [if_neg available] at returns ⊢
    obtain ⟨q, isPage, pageAt, pageVacant⟩ := found (room.page full)
    obtain ⟨stores', applied', after', _⟩ := after.mark pageAt
      (at_.vacant_insert pageAt vacant pageVacant (room.apart full))
    obtain ⟨rfl, _⟩ := returns.unique (executeEntries_cons first
      (executeEntries_cons (executes isPage applied') (executeEntries_nil _ _)))
    rw [List.append_nil, Mem.apply_append]
    exact ⟨_, after'⟩

theorem mem_newPages (s : Mapping) (m : Mem) {cur : Nat} (member : cur ∈ pages) :
    newCur s m cur ∈ newPages s m cur pages := by
  unfold newCur newPages
  split
  · exact member
  · simp

/-- An allocation with room for its blocks places its object and keeps the state sound. -/
theorem Sound.allocate (sound : Sound s m pages headers live) (machine : OnMachine s d cur)
    (member : cur ∈ pages) (room : Room s m cur length) (name : ProgId) :
    ∃ stores, (atomicAllocateMemoryLockheld s.shmem d length name.toCString).Returns m stores
        (.ok (s.block m length), some (newCur s m cur)) ∧
      Placed s m (m.apply stores) pages (newPages s m cur pages) headers (newHeader s m cur)
        ⟨s.block m length, length, name⟩ d.machineId ∧
      Sound s (m.apply stores) (newPages s m cur pages)
        (appendBehind headers (m.read 8 (peTail s.shmem.objHeaders)) (newHeader s m cur))
        (newBlocks s m cur length ++ live) := by
  have recording := sound.recording machine member room.object room.page
    (name.short.le.trans (Nat.le_add_right _ _))
  obtain ⟨virtualSlots, blocks, atEnd, invariant⟩ := sound.tree
  obtain ⟨logged, marks, rest, returns, offLog, _, _, marked, _, proper, placed⟩ :=
    recording.allocates sound.shape member fun full => sound.pagesAt (room.page full)
  refine ⟨_, returns, placed, placed.shape, ⟨virtualSlots, ?_⟩, fun p isPage notFirst => ?_⟩
  · have before : AllocInvariant s.arena virtualSlots ⟨m.apply logged, live⟩ blocks :=
      invariant.congr fun a inTree => offLog.tree inTree
    obtain ⟨blocks', after⟩ := markEntries_invariant before atEnd offLog room marked
    refine ⟨blocks', atEnd, ?_⟩
    rw [Mem.apply_append, Mem.apply_append]
    exact after.congr fun a inTree => proper.tree_same _ inTree
  · unfold newPages at isPage
    unfold newBlocks
    split at isPage
    · rw [if_pos ‹_›]
      exact List.mem_cons_of_mem _ (sound.pagesLive p isPage notFirst)
    · rw [if_neg ‹_›]
      rcases List.mem_append.mp isPage with old | new
      · exact List.mem_cons_of_mem _ (List.mem_cons_of_mem _ (sound.pagesLive p old notFirst))
      · rw [List.mem_singleton.mp new]
        exact List.mem_cons_self

end Sound

end Lupin.Alloc
