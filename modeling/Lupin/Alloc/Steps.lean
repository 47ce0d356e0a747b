import Lupin.Alloc.Shape

/-!
# What the entries of a log do to the shape

One lemma for each group of entries: a header that is filled and linked, a page that is
added, a header that is taken off the list. The entries may have been recorded from an
earlier memory with the same pages and queues.
-/

namespace Lupin.Alloc

open Lupin.Memory Lupin.Buddy Lupin.Log Lupin.LinkedList

/-! ## Filling a header -/

section Fill

variable {m : Mem} {p slot objPtr length availableSlots machineId : Nat} {progId : List Byte}

/-- The same stores with the name as one. -/
def hdrAllocParts (m : Mem) (p objPtr length slot availableSlots : Nat) (progId : List Byte)
    (machineId : Nat) : List Store :=
  [indexStore (fun byte mask => byte ||| mask) (objAllocBitset p) m slot,
    Mem.scalar 2 (availableSlotsAddr p) availableSlots,
    Mem.scalar 8 (objOptrAddr (objHeader p slot)) objPtr,
    Mem.scalar 8 (lengthAddr (objHeader p slot)) length,
    Mem.scalar 2 (machineIdAddr (objHeader p slot)) machineId,
    Mem.scalar 2 (slotIdAddr (objHeader p slot)) slot,
    ⟨progIdAddr (objHeader p slot), progId⟩]

theorem apply_hdrAllocStores (m m' : Mem) :
    m'.apply (hdrAllocStores m p objPtr length slot availableSlots progId machineId) =
      m'.apply (hdrAllocParts m p objPtr length slot availableSlots progId machineId) := by
  simp [hdrAllocStores, hdrAllocParts, Mem.apply_copy]

theorem hdrAllocParts_apart (bound : slot < numObjSlots) (short : progId.length ≤ progIdSize) :
    (hdrAllocParts m p objPtr length slot availableSlots progId machineId).Pairwise
      Store.Apart := by
  unfold numObjSlots at bound
  unfold progIdSize at short
  simp only [hdrAllocParts, List.pairwise_cons, List.forall_mem_cons, List.not_mem_nil,
    IsEmpty.forall_iff, implies_true, and_true, List.Pairwise.nil, Store.Apart, Mem.scalar,
    Mem.length_leBytes, indexStore, List.length_singleton, objAllocBitset, availableSlotsAddr,
    objOptrAddr, lengthAddr, machineIdAddr, slotIdAddr, progIdAddr, objHeader_eq]
  omega

/-- What a filled header and its slot map hold. -/
theorem hdrAllocStores_reads (bound : slot < numObjSlots) {name : ProgId}
    (availableFits : availableSlots < 256 ^ 2) (objFits : objPtr < 256 ^ 8)
    (lengthFits : length < 256 ^ 8) (m : Mem) :
    let m' := m.apply (hdrAllocStores m p objPtr length slot availableSlots name.bytes machineId)
    m'.read 2 (availableSlotsAddr p) = availableSlots ∧
      m'.read 2 (slotIdAddr (objHeader p slot)) = slot ∧
      ObjectAt m' (objHeader p slot) ⟨objPtr, length, name⟩ ∧
      ∀ k, k < 8 * sizeofObjBitset → bit m' (objAllocBitset p) k =
        if k = slot then true else bit m (objAllocBitset p) k := by
  have short : name.bytes.length ≤ progIdSize := name.bytes_length_le
  rw [apply_hdrAllocStores]
  have apart :=
    @hdrAllocParts_apart m p slot objPtr length availableSlots machineId name.bytes bound short
  have scalar : ∀ {n a value : Nat},
      Mem.scalar n a value ∈
        hdrAllocParts m p objPtr length slot availableSlots name.bytes machineId →
      value < 256 ^ n → _ :=
    fun member fits => Mem.read_apply_of_mem apart member fits m
  unfold numObjSlots at bound
  refine ⟨scalar (by simp [hdrAllocParts]) availableFits,
    scalar (by simp [hdrAllocParts]) (by omega),
    ⟨?_, scalar (by simp [hdrAllocParts]) objFits, scalar (by simp [hdrAllocParts]) lengthFits⟩,
    fun k inside => ?_⟩
  · exact Mem.shows_apply_of_mem apart (s := ⟨progIdAddr (objHeader p slot), name.bytes⟩)
      (by simp [hdrAllocParts]) m
  · unfold sizeofObjBitset at inside
    rw [← bit_indexStore writes_set, hdrAllocParts, Mem.apply_cons]
    refine bit_congr (Mem.apply_of_not_covers ?_ _)
    simp only [List.forall_mem_cons, List.not_mem_nil, IsEmpty.forall_iff, implies_true, and_true,
      Store.Covers, Mem.scalar, Mem.length_leBytes, objAllocBitset, availableSlotsAddr, objOptrAddr,
      lengthAddr, machineIdAddr, slotIdAddr, progIdAddr, objHeader_eq]
    omega

end Fill

/-! ## Linking a header -/

/-- The stores of the entries of an append, with the links as they were when recorded. -/
def linkStores (m : Mem) (lq h : Nat) : List Store :=
  (if m.read 8 (peFirst lq) = 0 then
    [Mem.scalar 8 (lePrevOptr h) 0, Mem.scalar 8 (peFirst lq) h]
  else
    [Mem.scalar 8 (lePrevOptr h) (m.read 8 (peTail lq)),
      Mem.scalar 8 (leNextOptr (m.read 8 (peTail lq))) h]) ++
  [Mem.scalar 8 (leNextOptr h) 0, Mem.scalar 8 (peTail lq) h]

/-- The list after an append: a header put behind a stale tail is not on it. -/
def appendBehind (l : List Nat) (tail h : Nat) : List Nat :=
  if l.getLastD tail = tail then l ++ [h] else l

section Link

variable {b : BuddyAlloc} {m m' : Mem} {lq h : Nat} {l : List Nat}

theorem executeEntries_link (curObjRecs : Option Nat) (notNull : h ≠ 0) (queueNotNull : lq ≠ 0)
    (tailNotNull : m.read 8 (peFirst lq) ≠ 0 → m.read 8 (peTail lq) ≠ 0) (m' : Mem) :
    (executeEntries b (appendEntries m lq h) curObjRecs).Returns m' (linkStores m lq h)
      curObjRecs := by
  have second : ∀ m'', (executeEntries b [.twoVal (leNextOptr h) 0 (peTail lq) h]
      curObjRecs).Returns m'' [Mem.scalar 8 (leNextOptr h) 0, Mem.scalar 8 (peTail lq) h]
      curObjRecs := fun m'' =>
    executeEntries_cons (executeEntry_twoVal m'' _ 0 h notNull (by unfold peTail; omega))
      (executeEntries_nil _ _)
  unfold appendEntries linkStores
  by_cases empty : m.read 8 (peFirst lq) = 0
  · rw [if_pos empty, if_pos empty]
    exact executeEntries_cons (executeEntry_twoVal m' _ 0 h (by simp [lePrevOptr]) queueNotNull)
      (second _)
  · rw [if_neg empty, if_neg empty]
    exact executeEntries_cons (executeEntry_twoVal m' _ _ h (by simp [lePrevOptr])
      (tailNotNull empty)) (second _)

theorem linkStores_within :
    ∀ t ∈ linkStores m lq h, t.Within h (h + 16) ∨ t.Within lq (lq + 16) ∨
      (m.read 8 (peFirst lq) ≠ 0 ∧ t.Within (m.read 8 (peTail lq)) (m.read 8 (peTail lq) + 8)) := by
  unfold linkStores
  split
  · simp only [List.cons_append, List.nil_append, List.forall_mem_cons, List.not_mem_nil,
      IsEmpty.forall_iff, implies_true, and_true, Mem.scalar_within, lePrevOptr, leNextOptr,
      peFirst, peTail]
    omega
  · rename_i notEmpty
    simp only [List.cons_append, List.nil_append, List.forall_mem_cons, List.not_mem_nil,
      IsEmpty.forall_iff, implies_true, and_true, Mem.scalar_within, lePrevOptr, leNextOptr,
      ne_eq, notEmpty, not_false_eq_true, true_and]
    simp only [peTail]
    omega

theorem linkStores_eq_appendStores (wellFormed : WellFormed m lq l) :
    linkStores m lq h = appendStores lq l h := by
  unfold linkStores appendStores
  rcases List.eq_nil_or_concat' l with rfl | ⟨front, last, rfl⟩
  · have empty : m.read 8 (peFirst lq) = 0 := wellFormed.first
    rw [if_pos empty]
    rfl
  · rw [if_neg (wellFormed.head_ne_zero (by simp)), wellFormed.tail (by simp)]
    simp

theorem linkStores_tail (bound : h < 2 ^ 64) (m' : Mem) :
    (m'.apply (linkStores m lq h)).read 8 (peTail lq) = h := by
  have last : linkStores m lq h = (linkStores m lq h).dropLast ++ [Mem.scalar 8 (peTail lq) h] := by
    unfold linkStores
    split <;> simp
  rw [last, Mem.apply_append, Mem.apply_cons, Mem.apply_nil, Mem.read_store_self]
  exact Nat.mod_eq_of_lt (by omega)

/-- An append puts the header behind `pe_tail`. If that has left the list, the list stays as
it is. -/
theorem ListAt.link (list : ListAt m lq l) (fresh : Fresh lq l h)
    (tail : l ≠ [] → m.read 8 (peTail lq) = l.getLastD 0 ∨
      EntriesApart (m.read 8 (peTail lq)) lq ∧ ∀ x ∈ l, EntriesApart x (m.read 8 (peTail lq))) :
    ListAt (m.apply (linkStores m lq h)) lq (appendBehind l (m.read 8 (peTail lq)) h) := by
  by_cases proper : l.getLastD (m.read 8 (peTail lq)) = m.read 8 (peTail lq)
  · have wellFormed : WellFormed m lq l := by
      refine ⟨list, fun nonempty => ?_⟩
      rw [← proper]
      obtain ⟨front, last, rfl⟩ := (List.eq_nil_or_concat' l).resolve_left nonempty
      simp
    rw [appendBehind, if_pos proper, linkStores_eq_appendStores wellFormed]
    exact (wellFormed_append wellFormed fresh).toListAt
  · have nonempty : l ≠ [] := by
      rintro rfl
      exact proper rfl
    have stale : ¬ m.read 8 (peTail lq) = l.getLastD 0 := by
      intro isLast
      obtain ⟨front, last, rfl⟩ := (List.eq_nil_or_concat' l).resolve_left nonempty
      rw [List.getLastD_concat] at proper isLast
      exact proper isLast.symm
    obtain ⟨tailApart, apart⟩ := (tail nonempty).resolve_left stale
    have queueApart := fresh.queueApart
    unfold EntriesApart at tailApart queueApart
    rw [appendBehind, if_neg proper, linkStores, if_neg (list.head_ne_zero nonempty)]
    refine list.congr (fun a low high => Mem.apply_of_not_covers ?_ m)
      (fun x member a low high => Mem.apply_of_not_covers ?_ m)
    · simp only [List.cons_append, List.nil_append, List.forall_mem_cons, List.not_mem_nil,
        IsEmpty.forall_iff, implies_true, and_true, Mem.scalar_covers, lePrevOptr, leNextOptr]
      simp only [peTail] at tailApart ⊢
      omega
    · have fromTail := apart x member
      have fromHeader := fresh.apart x member
      have fromQueue := list.queueApart x member
      unfold EntriesApart at fromTail fromHeader fromQueue
      simp only [List.cons_append, List.nil_append, List.forall_mem_cons, List.not_mem_nil,
        IsEmpty.forall_iff, implies_true, and_true, Mem.scalar_covers, lePrevOptr, leNextOptr]
      simp only [peTail] at fromTail ⊢
      omega

end Link

section Add

variable {s : Mapping} {m : Mem} {pages headers : List Nat} {p slot h : Nat}

theorem Shape.not_listed (shape : Shape s m pages headers) (member : p ∈ pages)
    (bound : slot < numObjSlots) (clear : bit m (objAllocBitset p) slot = false) :
    objHeader p slot ∉ headers := by
  intro onList
  rw [(shape.maps p member).used slot bound onList] at clear
  exact Bool.false_ne_true clear.symm

/-- The slot map of the page whose slot is filled. -/
theorem SlotMap.fill {m' : Mem} (map : SlotMap m headers p) (bound : slot < numObjSlots)
    (clear : bit m (objAllocBitset p) slot = false)
    (available : m'.read 2 (availableSlotsAddr p) = m.read 2 (availableSlotsAddr p) - 1)
    (bits : ∀ k, k < numObjSlots → bit m' (objAllocBitset p) k =
      if k = slot then true else bit m (objAllocBitset p) k) :
    SlotMap m' (objHeader p slot :: headers) p := by
  have counted : countBits m' (objAllocBitset p) 0 numObjSlots =
      countBits m (objAllocBitset p) 0 numObjSlots + 1 := by
    refine countBits_of_set bound ?_ ?_ fun j inside different => ?_
    · rw [Nat.zero_add, clear]
    · rw [Nat.zero_add, bits slot bound, if_pos rfl]
    · rw [Nat.zero_add, bits j inside, if_neg different]
  have fewer := countBits_le m' (objAllocBitset p) 0 numObjSlots
  have before := map.available
  refine ⟨fun i below onList => ?_, by omega⟩
  rw [bits i below]
  rcases List.mem_cons.mp onList with same | old
  · rw [if_pos]
    rw [objHeader_eq, objHeader_eq] at same
    omega
  · rw [map.used i below old, ite_self]

/-- The shape does not depend on the body of a header that is not listed, nor on the slot map
of its page as long as that is right. -/
theorem Shape.updateSlot (shape : Shape s m pages headers) {m' : Mem} (member : p ∈ pages)
    (bound : slot < numObjSlots) (notListed : objHeader p slot ∉ headers)
    (kept : ∀ a, (a < p + 16 ∨ p + 62 ≤ a) →
      (a < objHeader p slot + 16 ∨ objHeader p slot + 48 ≤ a) → m' a = m a)
    (map : SlotMap m' headers p) : Shape s m' pages headers := by
  have pagesAt := shape.pagesAt
  have pBounds := pagesAt.bounds member
  have hBounds := objHeader_bounds (p := p) bound
  have inPage : InPage pages (objHeader p slot) := ⟨p, member, slot, bound, rfl⟩
  have keptHeader : ∀ {x a : Nat}, x ∈ headers → x ≤ a → a < x + 48 → m' a = m a := by
    intro x a onList low high
    have fromPage := pagesAt.header_apart (shape.inPage onList) member
    have different : x ≠ objHeader p slot := fun same => notListed (same ▸ onList)
    have fromHeader := (pagesAt.apart_or_eq (shape.inPage onList) inPage).resolve_left different
    exact kept a (by omega) (by omega)
  have keptQueue : ∀ {a : Nat}, s.base ≤ a → m' a = m a :=
    fun above => kept _ (by omega) (by omega)
  have tail : m'.read 8 (peTail s.shmem.objHeaders) = m.read 8 (peTail s.shmem.objHeaders) :=
    Mem.read_congr fun a low high => keptQueue (by
      rw [s.objHeaders_eq, peTail] at low
      omega)
  refine ⟨⟨pagesAt, shape.firstPage, shape.pageList.congr ?_ ?_, shape.headerList.congr ?_ ?_,
    fun x onList => (shape.filled x onList).congr ?_⟩, fun q qMember => ?_, ?_, ?_⟩
  · intro a low high
    rw [s.objAllocs_eq] at low
    exact keptQueue (by omega)
  · intro q qMember a low high
    have fromHeader := pagesAt.header_apart inPage qMember
    rcases pagesAt.eq_or_apart qMember member with rfl | apart
    · exact kept a (by omega) (by omega)
    · exact kept a (by omega) (by omega)
  · intro a low high
    rw [s.objHeaders_eq] at low
    exact keptQueue (by omega)
  · exact fun x onList a low high => keptHeader onList low (by omega)
  · exact fun a low high => keptHeader onList (by omega) high
  · rcases pagesAt.eq_or_apart qMember member with rfl | fromPage
    · exact map
    · refine (shape.maps q qMember).congr (fun a low high => ?_) fun i _ onList => onList
      have fromHeader := pagesAt.header_apart inPage qMember
      exact kept a (by omega) (by omega)
  · rw [tail]
    exact shape.tailIn
  · rw [tail]
    exact shape.tail

/-- Filling a clear slot keeps the shape. -/
theorem Shape.fill (shape : Shape s m pages headers) (member : p ∈ pages)
    (bound : slot < numObjSlots) (clear : bit m (objAllocBitset p) slot = false)
    (object : Object) (offsetFits : object.offset < 256 ^ 8)
    (lengthFits : object.length < 256 ^ 8) (machineId : Nat) :
    let available := m.read 2 (availableSlotsAddr p) - 1
    let m' := m.apply (hdrAllocStores m p object.offset object.length slot available
      object.name.bytes machineId)
    Shape s m' pages headers ∧ m'.read 2 (availableSlotsAddr p) = available ∧
      m'.read 2 (slotIdAddr (objHeader p slot)) = slot ∧ ObjectAt m' (objHeader p slot) object ∧
      SlotMap m' (objHeader p slot :: headers) p := by
  intro available m'
  have fits : available < 256 ^ 2 := lt_of_le_of_lt (Nat.sub_le _ _) (Mem.read_lt m 2 _)
  obtain ⟨availableAfter, slotId, objectAt, bits⟩ :=
    @hdrAllocStores_reads p slot object.offset object.length available machineId bound
      object.name fits offsetFits lengthFits m
  have map := (shape.maps p member).fill bound clear availableAfter
    fun k below => bits k (below.trans_le (by decide))
  refine ⟨shape.updateSlot member bound (shape.not_listed member bound clear)
    (fun a notSlots notHeader => Mem.apply_of_not_covers (fun t stored => ?_) m)
    ⟨fun i below onList => map.used i below (List.mem_cons_of_mem _ onList), map.available⟩,
    availableAfter, slotId, objectAt, map⟩
  rcases hdrAllocStores_within bound (object.name.bytes_length_le.trans (by decide)) t stored
    with within | within
  · exact within.not_covers notSlots
  · exact within.not_covers notHeader

theorem PagesAt.fresh (pagesAt : PagesAt s pages) (inPages : ∀ x ∈ headers, InPage pages x)
    (inPage : InPage pages h) (notListed : h ∉ headers) :
    Fresh s.shmem.objHeaders headers h := by
  have bounds := pagesAt.header_bounds inPage
  have high := s.base_high
  refine ⟨by omega, by omega, fun x member => ?_, ?_⟩
  · have different : x ≠ h := fun same => notListed (same ▸ member)
    have := (pagesAt.apart_or_eq (inPages x member) inPage).resolve_left different
    unfold EntriesApart
    omega
  · rw [s.objHeaders_eq]
    exact .inl (by omega)

/-- Linking a filled header keeps the shape; it is on the list unless the tail was stale. -/
theorem Shape.link (shape : Shape s m pages headers) (filled : Filled m pages h)
    (notListed : h ∉ headers) (maps : ∀ p ∈ pages, SlotMap m (h :: headers) p) :
    let m' := m.apply (linkStores m s.shmem.objHeaders h)
    Shape s m' pages (appendBehind headers (m.read 8 (peTail s.shmem.objHeaders)) h) ∧
      m'.read 8 (peTail s.shmem.objHeaders) = h ∧
      (∀ x, InPage pages x → ∀ a, x + 16 ≤ a → a < x + 48 → m' a = m a) ∧
      ∀ q ∈ pages, ∀ a, q ≤ a → a < q + 64 → m' a = m a := by
  intro m'
  have pagesAt := shape.pagesAt
  have inPage := filled.inPage
  have bounds := pagesAt.header_bounds inPage
  have high := s.base_high
  have tailIn := shape.tailIn
  have kept : ∀ {a : Nat}, (a < h ∨ h + 16 ≤ a) → (a < s.base + 560 ∨ s.base + 576 ≤ a) →
      (headers ≠ [] → a < m.read 8 (peTail s.shmem.objHeaders) ∨
        m.read 8 (peTail s.shmem.objHeaders) + 8 ≤ a) → m' a = m a := by
    intro a notHeader notQueue notTail
    refine Mem.apply_of_not_covers (fun t stored => ?_) m
    rcases linkStores_within t stored with within | within | ⟨notEmpty, within⟩
    · exact within.not_covers notHeader
    · exact within.not_covers notQueue
    · refine within.not_covers (notTail ?_)
      rintro rfl
      exact notEmpty shape.headerList.first
  have keptBody : ∀ {x a : Nat}, InPage pages x → x + 16 ≤ a → a < x + 48 → m' a = m a := by
    intro x a xIn low high
    have xBounds := pagesAt.header_bounds xIn
    have fromHeader := pagesAt.apart_or_eq xIn inPage
    refine kept (by omega) (by omega) fun nonempty => ?_
    have fromTail := pagesAt.apart_or_eq xIn (tailIn nonempty)
    omega
  have keptPage : ∀ {q a : Nat}, q ∈ pages → q ≤ a → a < q + 64 → m' a = m a := by
    intro q a qMember low high
    have qBounds := pagesAt.bounds qMember
    have fromHeader := pagesAt.header_apart inPage qMember
    refine kept (by omega) (by omega) fun nonempty => ?_
    have fromTail := pagesAt.header_apart (tailIn nonempty) qMember
    omega
  have tailAfter : m'.read 8 (peTail s.shmem.objHeaders) = h :=
    linkStores_tail (by omega) m
  have list : ListAt m' s.shmem.objHeaders
      (appendBehind headers (m.read 8 (peTail s.shmem.objHeaders)) h) := by
    refine shape.headerList.link
      (pagesAt.fresh (fun x member => shape.inPage member) inPage notListed) fun nonempty => ?_
    refine (shape.tail nonempty).imp_right fun stale => ⟨?_, fun x member => ?_⟩
    · have := pagesAt.header_bounds (tailIn nonempty)
      rw [s.objHeaders_eq] at this ⊢
      exact .inl (by omega)
    · have different : x ≠ m.read 8 (peTail s.shmem.objHeaders) := fun same => stale (same ▸ member)
      have := (pagesAt.apart_or_eq (shape.inPage member) (tailIn nonempty)).resolve_left different
      unfold EntriesApart
      omega
  have subset : ∀ x ∈ appendBehind headers (m.read 8 (peTail s.shmem.objHeaders)) h,
      x = h ∨ x ∈ headers := by
    intro x onList
    unfold appendBehind at onList
    split at onList
    · simpa [or_comm] using onList
    · exact .inr onList
  refine ⟨⟨⟨pagesAt, shape.firstPage, shape.pageList.congr ?_ ?_, list, fun x onList => ?_⟩,
    fun q qMember => (maps q qMember).congr ?_ ?_, ?_, ?_⟩, tailAfter,
    fun x xIn a low high => keptBody xIn low high,
    fun q qMember a low high => keptPage qMember low high⟩
  · intro a low high
    rw [s.objAllocs_eq] at low
    refine kept (by omega) (by omega) fun nonempty => ?_
    have := pagesAt.header_bounds (tailIn nonempty)
    omega
  · exact fun q qMember a low high => keptPage qMember low (by omega)
  · rcases subset x onList with rfl | old
    · exact filled.congr fun a low high => keptBody inPage low high
    · exact (shape.filled x old).congr fun a low high => keptBody (shape.inPage old) low high
  · exact fun a low high => keptPage qMember (by omega) (by omega)
  · exact fun i _ onList => List.mem_cons.mpr (subset _ onList)
  · rw [tailAfter]
    exact fun _ => inPage
  · intro _
    rw [tailAfter, appendBehind]
    split
    · rw [List.getLastD_concat]
      exact .inl rfl
    · exact .inr notListed

end Add

/-! ## Adding a page -/

section Page

variable {s : Mapping} {m : Mem} {pages headers : List Nat} {p : Nat}

/-- What a fresh page holds. -/
theorem initObjAllocationRecords_reads (m : Mem) (p : Nat) :
    let m' := m.apply (initObjAllocationRecords p)
    m'.read 8 (leNextOptr p) = 0 ∧ m'.read 2 (availableSlotsAddr p) = numObjSlots ∧
      ∀ k, k < 8 * sizeofObjBitset → bit m' (objAllocBitset p) k = false := by
  have slotIds : ∀ t ∈ (List.range numObjSlots).map
      (fun i => Mem.scalar 2 (slotIdAddr (objHeader p i)) i), t.Within (p + 64) (p + 16384) := by
    intro t member
    obtain ⟨i, inRange, rfl⟩ := List.mem_map.mp member
    have bounds := objHeader_bounds (p := p) (List.mem_range.mp inRange)
    simp only [Mem.scalar_within, slotIdAddr]
    omega
  have cleared : ∀ t ∈ Mem.copy (objAllocBitset p) (List.replicate sizeofObjBitset 0),
      t.Within (p + 16) (p + 59) := by
    intro t member
    refine (Mem.copy_within member).mono ?_ ?_
    · unfold objAllocBitset
      omega
    · simp only [objAllocBitset, List.length_replicate, sizeofObjBitset]
      omega
  unfold initObjAllocationRecords
  simp only [Mem.apply_append, Mem.apply_cons, Mem.apply_nil]
  refine ⟨?_, ?_, fun k bound => ?_⟩
  · have fromAvailable : ∀ m' : Mem,
        (m'.store (Mem.scalar 2 (availableSlotsAddr p) numObjSlots)).read
        8 (leNextOptr p) = m'.read 8 (leNextOptr p) := fun m' =>
      Mem.read_store_of_disjoint
        (.inl (by simp only [Mem.scalar, leNextOptr, availableSlotsAddr]; omega))
    have fromPrev : ∀ m' : Mem, (m'.store (Mem.scalar 8 (lePrevOptr p) 0)).read 8 (leNextOptr p) =
        m'.read 8 (leNextOptr p) := fun m' =>
      Mem.read_store_of_disjoint (.inl (by simp only [Mem.scalar, leNextOptr, lePrevOptr]; omega))
    rw [Mem.read_apply_of_within _ slotIds (by unfold leNextOptr; omega), fromAvailable,
      Mem.read_apply_of_within _ cleared (by unfold leNextOptr; omega), fromPrev,
      Mem.read_store_self, Nat.zero_mod]
  · rw [Mem.read_apply_of_within _ slotIds (by unfold availableSlotsAddr; omega),
      Mem.read_store_self]
    rfl
  · have here : k / 8 < sizeofObjBitset := by omega
    unfold sizeofObjBitset at bound
    unfold bit
    rw [Mem.apply_of_not_covers, Mem.store_of_not_covers, Mem.apply_copy]
    · simp [Mem.store, here]
    · simp only [Mem.scalar_covers, availableSlotsAddr, objAllocBitset]
      omega
    · refine fun t member => (slotIds t member).not_covers (.inl ?_)
      unfold objAllocBitset
      omega

/-- The stores that link a page and initialise it, with the links as they are in `m`. -/
def addPageStores (s : Mapping) (m : Mem) (p : Nat) : List Store :=
  linkStores m s.shmem.objAllocs p ++ initObjAllocationRecords p

theorem PageList.first_ne_zero {lq : Nat} (list : PageList m lq pages)
    (first : pages.head? = some firstRecords) : m.read 8 (peFirst lq) ≠ 0 := by
  obtain ⟨rest, rfl⟩ : ∃ rest, pages = firstRecords :: rest := by
    cases pages with
    | nil => simp at first
    | cons page rest => exact ⟨rest, by rw [Option.some.inj first]⟩
  rw [list.first]
  exact (by decide : firstRecords ≠ 0)

theorem PageList.exists_last {lq : Nat} (list : PageList m lq pages)
    (first : pages.head? = some firstRecords) :
    ∃ front last, pages = front ++ [last] ∧ m.read 8 (peTail lq) = last := by
  rcases List.eq_nil_or_concat' pages with rfl | ⟨front, last, rfl⟩
  · simp at first
  · exact ⟨front, last, rfl, by rw [list.tail, List.getLastD_concat]⟩

/-- A page is linked behind the last one. -/
theorem PageList.push (list : PageList m s.shmem.objAllocs pages)
    (first : pages.head? = some firstRecords) (pagesAt : PagesAt s (pages ++ [p])) :
    PageList (m.apply (addPageStores s m p)) s.shmem.objAllocs (pages ++ [p]) := by
  have notEmpty := list.first_ne_zero first
  obtain ⟨front, last, rfl, tail⟩ := list.exists_last first
  have pBounds := pagesAt.bounds (show p ∈ _ by simp)
  have lastBounds := pagesAt.bounds (show last ∈ _ by simp)
  have high := s.base_high
  obtain ⟨_, _, apart⟩ := List.pairwise_append.mp pagesAt.apart
  have lastApart := apart last (by simp) p (by simp)
  unfold PagesApart sizeofRecords at lastApart
  have links : linkStores m s.shmem.objAllocs p =
      [Mem.scalar 8 (lePrevOptr p) last, Mem.scalar 8 (leNextOptr last) p,
        Mem.scalar 8 (leNextOptr p) 0, Mem.scalar 8 (peTail s.shmem.objAllocs) p] := by
    rw [linkStores, if_neg notEmpty, tail]
    rfl
  -- initialising the page leaves the links of the others and the queue alone
  have initKept : ∀ {w : Nat}, w + 8 ≤ p ∨ p + 16384 ≤ w →
      (m.apply (addPageStores s m p)).read 8 w =
        (m.apply (linkStores m s.shmem.objAllocs p)).read 8 w := by
    intro w outside
    rw [addPageStores, Mem.apply_append]
    exact Mem.read_apply_of_within _ initObjAllocationRecords_within outside
  have linksApart : (linkStores m s.shmem.objAllocs p).Pairwise Store.Apart := by
    rw [links]
    simp only [List.pairwise_cons, List.forall_mem_cons, List.not_mem_nil, IsEmpty.forall_iff,
      implies_true, and_true, List.Pairwise.nil, Mem.scalar_apart, lePrevOptr, leNextOptr, peTail,
      s.objAllocs_eq]
    omega
  have linkKept : ∀ {w : Nat}, (w + 8 ≤ p ∨ p + 16 ≤ w) → (w + 8 ≤ last ∨ last + 8 ≤ w) →
      w + 8 ≤ s.base + 584 →
      (m.apply (linkStores m s.shmem.objAllocs p)).read 8 w = m.read 8 w := by
    intro w notPage notLast below
    refine Mem.read_apply_of_disjoint m ?_
    rw [links]
    simp only [List.forall_mem_cons, List.not_mem_nil, IsEmpty.forall_iff, implies_true, and_true,
      Mem.scalar, Mem.length_leBytes, lePrevOptr, leNextOptr, peTail, s.objAllocs_eq]
    omega
  obtain ⟨prev, linked⟩ := list.linked
  refine ⟨?_, ⟨Function.update prev p last, ?_⟩, ?_⟩
  · have head : (front ++ [last] ++ [p]).headD 0 = (front ++ [last]).headD 0 := by
      cases front <;> rfl
    rw [head, ← list.first, initKept (by rw [s.objAllocs_eq, peFirst]; omega),
      linkKept (by rw [s.objAllocs_eq, peFirst]; omega) (by rw [s.objAllocs_eq, peFirst]; omega)
        (by rw [s.objAllocs_eq, peFirst])]
  · rw [List.append_assoc]
    refine linked.push (fun q member => ?_) (fun q member => ?_) ?_ ?_ ?_
    · have fromPage := apart q (by simp [member]) p (by simp)
      have fromLast := (List.pairwise_append.mp (List.pairwise_append.mp pagesAt.apart).1).2.2 q
        member last (by simp)
      have bounds := pagesAt.bounds (show q ∈ _ by simp [member])
      unfold PagesApart sizeofRecords at fromPage fromLast
      rw [initKept (by unfold leNextOptr; omega), linkKept (by unfold leNextOptr; omega)
        (by unfold leNextOptr; omega) (by unfold leNextOptr; omega)]
    · have fromPage := apart q member p (by simp)
      unfold PagesApart sizeofRecords at fromPage
      exact Function.update_of_ne (by omega) _ _
    · rw [initKept (by unfold leNextOptr; omega)]
      exact Mem.read_apply_of_mem linksApart (by rw [links]; simp) (by omega) m
    · rw [addPageStores, Mem.apply_append]
      exact (initObjAllocationRecords_reads _ p).1
    · exact Function.update_self _ _ _
  · rw [List.getLastD_concat, initKept (by rw [s.objAllocs_eq, peTail]; omega)]
    exact Mem.read_apply_of_mem linksApart (by rw [links]; simp) (by omega) m

/-- What adding a page leaves alone. -/
theorem addPageStores_kept (list : PageList m s.shmem.objAllocs pages)
    (pagesAt : PagesAt s (pages ++ [p])) {a : Nat} (notPage : a < p ∨ p + 16384 ≤ a)
    (notLast : ∀ q ∈ pages, a < q ∨ q + 8 ≤ a) (notQueue : a < s.base + 576) :
    m.apply (addPageStores s m p) a = m a := by
  refine Mem.apply_of_not_covers (List.forall_mem_append.mpr ⟨fun t member => ?_,
    fun t member => (initObjAllocationRecords_within t member).not_covers notPage⟩) m
  rcases linkStores_within t member with within | within | ⟨notEmpty, within⟩
  · exact within.not_covers (by omega)
  · rw [s.objAllocs_eq] at within
    exact within.not_covers (.inl notQueue)
  · refine within.not_covers (notLast _ ?_)
    rcases List.eq_nil_or_concat' pages with rfl | ⟨front, last, rfl⟩
    · exact absurd list.first notEmpty
    · rw [list.tail, List.getLastD_concat]
      simp

/-- Adding a page in a place of its own keeps the shape; all its slots are free. -/
theorem Shape.addPage (shape : Shape s m pages headers) (pagesAt : PagesAt s (pages ++ [p])) :
    let m' := m.apply (addPageStores s m p)
    Shape s m' (pages ++ [p]) headers ∧ m'.read 2 (availableSlotsAddr p) = numObjSlots ∧
      (∀ k, k < numObjSlots → bit m' (objAllocBitset p) k = false) ∧
      ∀ a, (a < p ∨ p + 16384 ≤ a) → (∀ q ∈ pages, a < q ∨ q + 8 ≤ a) → a < s.base + 576 →
        m' a = m a := by
  intro m'
  obtain ⟨_, available, cleared⟩ :=
    initObjAllocationRecords_reads (m.apply (linkStores m s.shmem.objAllocs p)) p
  rw [← Mem.apply_append] at available cleared
  change m'.read 2 (availableSlotsAddr p) = numObjSlots at available
  have clear : ∀ k, k < numObjSlots → bit m' (objAllocBitset p) k = false :=
    fun k below => cleared k (below.trans_le (by decide))
  have kept : ∀ a, (a < p ∨ p + 16384 ≤ a) → (∀ q ∈ pages, a < q ∨ q + 8 ≤ a) →
      a < s.base + 576 → m' a = m a :=
    fun a notPage notLast notQueue =>
      addPageStores_kept shape.pageList pagesAt notPage notLast notQueue
  obtain ⟨_, _, apart⟩ := List.pairwise_append.mp pagesAt.apart
  have pageApart : ∀ q ∈ pages, q + 16384 ≤ p ∨ p + 16384 ≤ q := fun q member =>
    apart q member p (by simp)
  have pBounds := pagesAt.bounds (show p ∈ _ by simp)
  have subset : ∀ q ∈ pages, q ∈ pages ++ [p] := fun q member => List.mem_append_left _ member
  have keptHeader : ∀ {x a : Nat}, InPage pages x → x ≤ a → a < x + 48 → m' a = m a := by
    rintro x a ⟨q, member, i, bound, rfl⟩ low high
    have := objHeader_bounds (p := q) bound
    have := shape.pagesAt.bounds member
    have := pageApart q member
    refine kept a (by omega) (fun r rMember => ?_) (by omega)
    have := shape.pagesAt.eq_or_apart rMember member
    omega
  have keptQueue : ∀ {a : Nat}, s.base + 560 ≤ a → a < s.base + 576 → m' a = m a := by
    intro a low high
    refine kept a (by omega) (fun q member => ?_) high
    have := shape.pagesAt.bounds member
    omega
  have tail : m'.read 8 (peTail s.shmem.objHeaders) = m.read 8 (peTail s.shmem.objHeaders) :=
    Mem.read_congr fun a low high => keptQueue (by rw [s.objHeaders_eq, peTail] at low; omega)
      (by rw [s.objHeaders_eq, peTail] at high; omega)
  refine ⟨⟨⟨pagesAt, ?_, shape.pageList.push shape.firstPage pagesAt, shape.headerList.congr ?_ ?_,
    fun x onList => ?_⟩, fun q member => ?_, ?_, ?_⟩, available, clear, kept⟩
  · rw [List.head?_append, shape.firstPage]
    rfl
  · intro a low high
    rw [s.objHeaders_eq] at low high
    exact keptQueue low (by omega)
  · exact fun x onList a low high => keptHeader (shape.inPage onList) low (by omega)
  · obtain ⟨q, member, rest⟩ := (shape.filled x onList).congr  fun a low high =>
      keptHeader (shape.inPage onList) (by omega) high
    exact ⟨q, subset q member, rest⟩
  · rcases List.mem_append.mp member with old | new
    · refine (shape.maps q old).congr (fun a low high => ?_) fun i _ onList => onList
      have := shape.pagesAt.bounds old
      have := pageApart q old
      refine kept a (by omega) (fun r rMember => ?_) (by omega)
      have := shape.pagesAt.eq_or_apart rMember old
      omega
    · obtain rfl := List.mem_singleton.mp new
      refine ⟨fun i bound onList => ?_, ?_⟩
      · obtain ⟨r, rMember, j, below, same⟩ := shape.inPage onList
        have := pageApart r rMember
        obtain ⟨rfl, _⟩ := pagesAt.header_inj member (subset r rMember) bound below same
        omega
      · rw [available, countBits_of_all_clear fun j below => clear _ (by omega),
          Nat.add_zero]
  · rw [tail]
    exact fun nonempty => (shape.tailIn nonempty).mono subset
  · rw [tail]
    exact shape.tail

end Page

/-! ## Taking a header off the list -/

/-- The stores of the entries of a removal, with the links as they were when recorded. -/
def unlinkStores (m : Mem) (lq h : Nat) : List Store :=
  if m.read 8 (peFirst lq) = h ∧ m.read 8 (leNextOptr h) = 0 then [Mem.scalar 8 (peFirst lq) 0]
  else
    [Mem.scalar 8 (lePrevOptr (m.read 8 (leNextOptr h))) (m.read 8 (lePrevOptr h)),
      Mem.scalar 8 (leNextOptr (m.read 8 (lePrevOptr h))) (m.read 8 (leNextOptr h))]

section Unlink

variable {b : BuddyAlloc} {s : Mapping} {m : Mem} {pages headers : List Nat} {lq h : Nat}
  {l : List Nat}

/-- The removal of the first of several headers stops at a null pointer. -/
theorem executeEntries_unlink_first {right : Nat} {back : List Nat} (curObjRecs : Option Nat)
    (list : ListAt m lq (h :: right :: back)) (m' : Mem) :
    executeEntries b (removeEntries m lq h) curObjRecs m' =
      ([Mem.scalar 8 (lePrevOptr right) 0], none) := by
  rw [removeEntries_first list]
  exact Shm.bind_of_none (executeEntry_twoVal_null _ _ _ _ (by simp [lePrevOptr]))

/-- Any other removal completes. -/
theorem executeEntries_unlink (curObjRecs : Option Nat) (list : ListAt m lq l) (member : h ∈ l)
    (removable : l = [h] ∨ l.head? ≠ some h) (m' : Mem) :
    (executeEntries b (removeEntries m lq h) curObjRecs).Returns m' (unlinkStores m lq h)
      curObjRecs := by
  rcases places_of_mem member with rfl | ⟨right, back, rfl⟩ | ⟨front, left, rfl⟩ |
    ⟨front, left, right, back, rfl⟩
  · have next := (@ListAt.links _ _ _ [] _ list).2
    have first : m.read 8 (peFirst lq) = h := list.first
    rw [removeEntries_sole list, unlinkStores, if_pos ⟨first, next⟩]
    exact executeEntries_cons (executeEntry_val _ _ _ _) (executeEntries_nil _ _)
  · simp at removable
  · have notFirst := list.first_ne
    have notNull := list.notNull left (by simp)
    rw [removeEntries_last list, unlinkStores, if_neg fun sole => notFirst sole.1]
    rw [List.append_cons front left [h]] at list
    obtain ⟨prev, next⟩ := list.links
    simp only [List.getLastD_concat, List.headD_nil] at prev next
    rw [prev, next]
    exact executeEntries_cons (executeEntry_twoVal _ _ _ _ (by simp [lePrevOptr]) notNull)
      (executeEntries_nil _ _)
  · have notFirst := list.first_ne
    have notNull := list.notNull left (by simp)
    rw [removeEntries_middle list, unlinkStores, if_neg fun sole => notFirst sole.1]
    rw [List.append_cons front left (h :: right :: back)] at list
    obtain ⟨prev, next⟩ := list.links
    simp only [List.getLastD_concat, List.headD_cons] at prev next
    rw [prev, next]
    exact executeEntries_cons (executeEntry_twoVal _ _ _ _ (by simp [lePrevOptr]) notNull)
      (executeEntries_nil _ _)

/-- Taking out the last header leaves those before it. The store to the link before it goes
to the first bytes of the mapping. -/
theorem ListAt.remove_last {left : Nat} {front : List Nat}
    (list : ListAt m lq (front ++ [left, h])) (low : ∀ x ∈ lq :: (front ++ [left, h]), 16 ≤ x) :
    ListAt (m.apply [Mem.scalar 8 (lePrevOptr 0) left, Mem.scalar 8 (leNextOptr left) 0]) lq
      (front ++ [left]) := by
  obtain ⟨queueLow, elementsLow⟩ := List.forall_mem_cons.mp low
  rw [List.append_cons front left [h]] at list elementsLow
  have shorter : (front ++ [left]).Sublist (front ++ [left] ++ [h]) := List.sublist_append_left _ _
  obtain ⟨frontLinked, prevLeft, _⟩ := linked_append.mp (linked_append.mp list.linked).1
  have fromQueue := list.queueApart left (by simp)
  unfold EntriesApart at fromQueue
  have kept : ∀ {w : Nat}, 16 ≤ w → (w + 8 ≤ left ∨ left + 8 ≤ w) →
      (m.apply [Mem.scalar 8 (lePrevOptr 0) left, Mem.scalar 8 (leNextOptr left) 0]).read 8 w =
        m.read 8 w := by
    intro w above notLeft
    refine Mem.read_apply_of_disjoint m ?_
    simp only [List.forall_mem_cons, List.not_mem_nil, IsEmpty.forall_iff, implies_true, and_true,
      Mem.scalar, Mem.length_leBytes, lePrevOptr, leNextOptr]
    omega
  have leftLow := elementsLow left (by simp)
  refine ⟨?_, linked_append.mpr ⟨frontLinked.congr ?_ ?_, ?_, ?_, trivial⟩,
    fun x member => list.notNull x (shorter.subset member),
    fun x member => list.bound x (shorter.subset member), list.apart.sublist shorter,
    fun x member => list.queueApart x (shorter.subset member)⟩
  · have head : (front ++ [left]).headD 0 = (front ++ [left] ++ [h]).headD 0 := by
      cases front <;> rfl
    rw [head, ← list.first]
    exact kept (w := peFirst lq) queueLow (by unfold peFirst; omega)
  · intro x member
    have apart := (List.pairwise_append.mp (list.apart.sublist shorter)).2.2 x member left (by simp)
    have := elementsLow x (by simp [member])
    unfold EntriesApart at apart
    exact kept (by unfold leNextOptr; omega) (by unfold leNextOptr; omega)
  · intro x member
    have apart := (List.pairwise_append.mp (list.apart.sublist shorter)).2.2 x member left (by simp)
    have := elementsLow x (by simp [member])
    unfold EntriesApart at apart
    exact kept (by unfold lePrevOptr; omega) (by unfold lePrevOptr; omega)
  · exact (kept (w := lePrevOptr left) (by unfold lePrevOptr; omega)
      (by unfold lePrevOptr; omega)).trans prevLeft
  · exact Mem.read_store_self _ 8 (leNextOptr left) 0

/-- The list without the header, whether it is the last, one between others or the only one. -/
theorem ListAt.unlink (list : ListAt m lq l) (member : h ∈ l)
    (removable : l = [h] ∨ l.head? ≠ some h) (low : ∀ x ∈ lq :: l, 16 ≤ x) :
    ListAt (m.apply (unlinkStores m lq h)) lq (l.erase h) := by
  have distinct := list.nodup
  rcases places_of_mem member with rfl | ⟨right, back, rfl⟩ | ⟨front, left, rfl⟩ |
    ⟨front, left, right, back, rfl⟩
  · have next := (@ListAt.links _ _ _ [] _ list).2
    have first : m.read 8 (peFirst lq) = h := list.first
    rw [unlinkStores, if_pos ⟨first, next⟩, List.erase_cons_head]
    exact listAt_remove_sole
  · simp at removable
  · have result := list.remove_last low
    have notFirst := list.first_ne
    rw [List.append_cons front left [h]] at list distinct ⊢
    obtain ⟨prev, next⟩ := list.links
    simp only [List.getLastD_concat, List.headD_nil] at prev next
    rw [unlinkStores, if_neg fun sole => notFirst sole.1, prev, next, erase_between distinct,
      List.append_nil]
    exact result
  · have result := list.remove_middle
    have notFirst := list.first_ne
    rw [List.append_cons front left (h :: right :: back)] at list distinct ⊢
    obtain ⟨prev, next⟩ := list.links
    simp only [List.getLastD_concat, List.headD_cons] at prev next
    rw [unlinkStores, if_neg fun sole => notFirst sole.1, prev, next, erase_between distinct,
      ← List.append_cons]
    exact result

/-- A removal writes to the queue, to the links of elements and to the first bytes. -/
theorem unlinkStores_within (list : ListAt m lq l) (member : h ∈ l) :
    ∀ t ∈ unlinkStores m lq h, t.Within 0 16 ∨ t.Within lq (lq + 8) ∨
      ∃ x ∈ l, t.Within x (x + 16) := by
  obtain ⟨front, back, rfl⟩ := List.append_of_mem member
  obtain ⟨prev, next⟩ := list.links
  have first : 0 = back.headD 0 ∨ back.headD 0 ∈ front ++ h :: back := by
    cases back with
    | nil => exact .inl rfl
    | cons right back => exact .inr (by simp)
  have last : 0 = front.getLastD 0 ∨ front.getLastD 0 ∈ front ++ h :: back := by
    rcases List.eq_nil_or_concat' front with rfl | ⟨front, left, rfl⟩
    · exact .inl rfl
    · exact .inr (by simp)
  unfold unlinkStores
  split
  · simp only [List.forall_mem_singleton, Mem.scalar_within, peFirst]
    exact .inr (.inl (by omega))
  · rw [prev, next]
    simp only [List.forall_mem_cons, List.not_mem_nil, IsEmpty.forall_iff, implies_true, and_true,
      Mem.scalar_within, lePrevOptr, leNextOptr]
    refine ⟨?_, ?_⟩
    · rcases first with null | onList
      · exact .inl (by omega)
      · exact .inr (.inr ⟨_, onList, by omega⟩)
    · rcases last with null | onList
      · exact .inl (by omega)
      · exact .inr (.inr ⟨_, onList, by omega⟩)

theorem Lists.unlinkStores_kept (lists : Lists s m pages headers) (member : h ∈ headers) {a : Nat}
    (low : 16 ≤ a) (notQueue : a < s.base + 560 ∨ s.base + 568 ≤ a)
    (notLinks : ∀ x ∈ headers, a < x ∨ x + 16 ≤ a) :
    m.apply (unlinkStores m s.shmem.objHeaders h) a = m a := by
  refine Mem.apply_of_not_covers (fun t stored => ?_) m
  rcases unlinkStores_within lists.headerList member t stored with within | within |
    ⟨x, onList, within⟩
  · exact within.not_covers (.inr low)
  · exact within.not_covers notQueue
  · exact within.not_covers (notLinks x onList)

/-- Taking a header off the list leaves the bodies of all headers. -/
theorem Lists.unlink_body (lists : Lists s m pages headers) (member : h ∈ headers) {x a : Nat}
    (inPage : InPage pages x) (low : x + 16 ≤ a) (high : a < x + 48) :
    m.apply (unlinkStores m s.shmem.objHeaders h) a = m a := by
  have bounds := lists.pagesAt.header_bounds inPage
  refine lists.unlinkStores_kept member (by omega) (by omega) fun y onList => ?_
  have := lists.pagesAt.apart_or_eq inPage (lists.inPage onList)
  omega

/-- Taking a header off the list leaves list entries and slot maps of the pages. -/
theorem Lists.unlink_page (lists : Lists s m pages headers) (member : h ∈ headers) {p a : Nat}
    (pMember : p ∈ pages) (low : p ≤ a) (high : a < p + 64) :
    m.apply (unlinkStores m s.shmem.objHeaders h) a = m a := by
  have bounds := lists.pagesAt.bounds pMember
  refine lists.unlinkStores_kept member (by omega) (by omega) fun y onList => ?_
  have := lists.pagesAt.header_apart (lists.inPage onList) pMember
  omega

theorem Lists.unlink_queue (lists : Lists s m pages headers) (member : h ∈ headers) {a : Nat}
    (low : s.base + 568 ≤ a) : m.apply (unlinkStores m s.shmem.objHeaders h) a = m a := by
  refine lists.unlinkStores_kept member (by omega) (.inr low) fun y onList => ?_
  have := lists.pagesAt.header_bounds (lists.inPage onList)
  omega

theorem Lists.unlink (lists : Lists s m pages headers) (member : h ∈ headers)
    (removable : headers = [h] ∨ headers.head? ≠ some h) :
    Lists s (m.apply (unlinkStores m s.shmem.objHeaders h)) pages (headers.erase h) := by
  have base := s.base_low
  refine ⟨lists.pagesAt, lists.firstPage, lists.pageList.congr ?_ ?_,
    lists.headerList.unlink member removable ?_, fun x onList => ?_⟩
  · intro a low high
    rw [s.objAllocs_eq] at low
    exact lists.unlink_queue member (by omega)
  · exact fun p pMember a low high => lists.unlink_page member pMember low (by omega)
  · refine List.forall_mem_cons.mpr ⟨by rw [s.objHeaders_eq]; omega, fun x onList => ?_⟩
    have := lists.pagesAt.header_bounds (lists.inPage onList)
    omega
  · have old := List.mem_of_mem_erase onList
    exact (lists.filled x old).congr fun a low high =>
      lists.unlink_body member (lists.inPage old) low high

/-- A header that is taken off the list may stay in `pe_tail`. -/
theorem Shape.unlink (shape : Shape s m pages headers) (member : h ∈ headers)
    (removable : headers = [h] ∨ headers.head? ≠ some h) :
    Shape s (m.apply (unlinkStores m s.shmem.objHeaders h)) pages (headers.erase h) := by
  have distinct := shape.headerList.nodup
  have tail : (m.apply (unlinkStores m s.shmem.objHeaders h)).read 8 (peTail s.shmem.objHeaders) =
      m.read 8 (peTail s.shmem.objHeaders) :=
    Mem.read_congr fun a low high => shape.unlink_queue member (by
      rw [s.objHeaders_eq, peTail] at low
      omega)
  have nonempty : headers ≠ [] := List.ne_nil_of_mem member
  refine ⟨shape.toLists.unlink member removable,
    fun p pMember => (shape.maps p pMember).congr ?_ ?_, ?_, ?_⟩
  · exact fun a low high => shape.unlink_page member pMember (by omega) (by omega)
  · exact fun i _ onList => List.mem_of_mem_erase onList
  · rw [tail]
    exact fun _ => shape.tailIn nonempty
  · rw [tail]
    intro more
    rcases shape.tail nonempty with isLast | stale
    · by_cases here : headers.getLastD 0 = h
      · -- the last header has been taken off
        rw [isLast, here]
        exact .inr (distinct.not_mem_erase)
      · refine .inl (isLast.trans ?_)
        obtain ⟨front, last, rfl⟩ := (List.eq_nil_or_concat' headers).resolve_left nonempty
        rw [List.getLastD_concat] at here ⊢
        have inFront : h ∈ front := by
          rcases List.mem_append.mp member with inFront | isHere
          · exact inFront
          · exact absurd (List.mem_singleton.mp isHere).symm here
        rw [List.erase_append_left _ inFront, List.getLastD_concat]
    · exact .inr fun onList => stale (List.mem_of_mem_erase onList)

/-! ## Freeing a slot -/

theorem bit_hdrFreeStores (m : Mem) (p slot availableSlots : Nat) {k : Nat}
    (below : k < 8 * sizeofObjBitset) :
    bit (m.apply (hdrFreeStores m p slot availableSlots)) (objAllocBitset p) k =
      if k = slot then false else bit m (objAllocBitset p) k := by
  rw [hdrFreeStores, Mem.apply_cons, ← bit_indexStore writes_clear]
  unfold sizeofObjBitset at below
  refine bit_congr (Mem.apply_of_not_covers ?_ _)
  simp only [List.forall_mem_singleton, Store.Covers, Mem.scalar, Mem.length_leBytes,
    objAllocBitset, availableSlotsAddr]
  omega

theorem SlotMap.available_free {p : Nat} (map : SlotMap m headers p) (slot : Nat) :
    (m.apply (hdrFreeStores m p slot (m.read 2 (availableSlotsAddr p) + 1))).read 2
      (availableSlotsAddr p) = m.read 2 (availableSlotsAddr p) + 1 := by
  have before := map.available
  have slots : numObjSlots = 340 := rfl
  rw [hdrFreeStores, Mem.apply_cons, Mem.apply_cons, Mem.apply_nil, Mem.read_store_self]
  exact Nat.mod_eq_of_lt (by omega)

/-- The slot map after the two stores, if the header is not listed any more. -/
theorem SlotMap.free {p slot : Nat} (map : SlotMap m headers p) (bound : slot < numObjSlots)
    (set : bit m (objAllocBitset p) slot = true) (notListed : objHeader p slot ∉ headers) :
    SlotMap (m.apply (hdrFreeStores m p slot (m.read 2 (availableSlotsAddr p) + 1))) headers p := by
  have bits : ∀ k, k < numObjSlots →
      bit (m.apply (hdrFreeStores m p slot (m.read 2 (availableSlotsAddr p) + 1)))
        (objAllocBitset p) k = if k = slot then false else bit m (objAllocBitset p) k :=
    fun k below => bit_hdrFreeStores m p slot _ (below.trans_le (by decide))
  have counted : countBits m (objAllocBitset p) 0 numObjSlots =
      countBits (m.apply (hdrFreeStores m p slot (m.read 2 (availableSlotsAddr p) + 1)))
        (objAllocBitset p) 0 numObjSlots + 1 := by
    refine countBits_of_set bound ?_ ?_ fun j inside different => ?_
    · rw [Nat.zero_add, bits slot bound, if_pos rfl]
    · rw [Nat.zero_add, set]
    · rw [Nat.zero_add, bits j inside, if_neg different]
  have before := map.available
  have available := map.available_free slot
  refine ⟨fun i below onList => ?_, by omega⟩
  have different : i ≠ slot := fun same => notListed (same ▸ onList)
  rw [bits i below, if_neg different]
  exact map.used i below onList

theorem Shape.freeSlot (shape : Shape s m pages headers) {p slot : Nat} (member : p ∈ pages)
    (bound : slot < numObjSlots) (set : bit m (objAllocBitset p) slot = true)
    (notListed : objHeader p slot ∉ headers) :
    Shape s (m.apply (hdrFreeStores m p slot (m.read 2 (availableSlotsAddr p) + 1))) pages
      headers :=
  shape.updateSlot member bound notListed
    (fun _ notSlots _ => Mem.apply_of_not_covers
      (fun t stored => (hdrFreeStores_within bound t stored).not_covers notSlots) m)
    ((shape.maps p member).free bound set notListed)

end Unlink

end Lupin.Alloc
