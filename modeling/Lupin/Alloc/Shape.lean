import Lupin.Alloc.Ops

/-!
# The shape of the allocator's memory

Record pages and the headers in them, the list of pages, the list of headers of named
objects, and the slot maps. Everything is below `struct meta_shmem` or in its two
queues, so the log, the tree and the first bytes of the mapping do not matter.
-/

namespace Lupin.Alloc

open Lupin.Memory Lupin.Buddy Lupin.Log Lupin.LinkedList

/-! ## The mapping -/

/-- A mapping that `vcxl_init_meta_impl` has set up: the arena starts behind the reserved
area and ends before the metadata, and the tree follows `struct meta_shmem`. -/
structure Mapping where
  arena : Arena
  base : Nat
  memLength : Nat
  main_eq : arena.main = Layout.totalReserved
  alignment_eq : arena.alignment = Layout.buddyAllocAlignment
  arena_end : arena.main + arena.memorySize ≤ base
  bits_eq : arena.tree.bits = base + 656
  base_lt : base + 656 ≤ memLength
  memLength_le : memLength ≤ 2 ^ 62

def Mapping.shmem (s : Mapping) : MetaShmem := ⟨s.base, s.arena.toBuddyAlloc⟩

theorem Mapping.buddyAlloc_eq (s : Mapping) : s.shmem.buddyAlloc = s.arena.toBuddyAlloc := rfl

theorem Mapping.redolog_eq (s : Mapping) : s.shmem.redolog = s.base := rfl

theorem Mapping.objHeaders_eq (s : Mapping) : s.shmem.objHeaders = s.base + 560 := rfl

theorem Mapping.objAllocs_eq (s : Mapping) : s.shmem.objAllocs = s.base + 576 := rfl

theorem Mapping.logEnd_eq (s : Mapping) :
    entryAddr s.shmem.redolog redologEntries = s.base + 560 := rfl

theorem Mapping.base_low (s : Mapping) : 98304 < s.base := by
  have main := s.main_eq
  have size := s.arena.memorySize_pos
  have := s.arena_end
  have reserved : Layout.totalReserved = 98304 := rfl
  omega

theorem Mapping.base_high (s : Mapping) : s.base + 656 ≤ 2 ^ 62 :=
  s.base_lt.trans s.memLength_le

/-- The memories have the same pages and the same queues. -/
structure Mapping.Same (s : Mapping) (m m' : Mem) : Prop where
  pages : ∀ a, firstRecords ≤ a → a < s.base → m' a = m a
  queues : ∀ a, s.base + 560 ≤ a → a < s.base + 592 → m' a = m a

namespace Mapping.Same

variable {s : Mapping} {m m' m'' : Mem}

theorem trans (first : s.Same m m') (second : s.Same m' m'') : s.Same m m'' :=
  ⟨fun a low high => (second.pages a low high).trans (first.pages a low high),
    fun a low high => (second.queues a low high).trans (first.queues a low high)⟩

theorem read_page (same : s.Same m m') {n a : Nat} (low : firstRecords ≤ a)
    (high : a + n ≤ s.base) : m'.read n a = m.read n a :=
  Mem.read_congr fun b above below => same.pages b (by omega) (by omega)

theorem read_queue (same : s.Same m m') {n a : Nat} (low : s.base + 560 ≤ a)
    (high : a + n ≤ s.base + 592) : m'.read n a = m.read n a :=
  Mem.read_congr fun b above below => same.queues b (by omega) (by omega)

end Mapping.Same

/-! ## Pages and headers -/

/-- The pages do not overlap. -/
def PagesApart (p q : Nat) : Prop := p + sizeofRecords ≤ q ∨ q + sizeofRecords ≤ p

instance : Std.Symm PagesApart := ⟨fun _ _ => Or.symm⟩

/-- Places for record pages in the mapping. -/
structure PagesAt (s : Mapping) (pages : List Nat) : Prop where
  inside : ∀ p ∈ pages, firstRecords ≤ p ∧ p + sizeofRecords ≤ s.base
  apart : pages.Pairwise PagesApart

section Places

variable {s : Mapping} {pages : List Nat} {p q i j : Nat}

theorem PagesAt.eq_or_apart (placed : PagesAt s pages) (pMember : p ∈ pages) (qMember : q ∈ pages) :
    p = q ∨ (p + 16384 ≤ q ∨ q + 16384 ≤ p) := by
  by_cases same : p = q
  · exact .inl same
  · exact .inr (placed.apart.forall pMember qMember same)

theorem PagesAt.bounds (placed : PagesAt s pages) (member : p ∈ pages) :
    20480 ≤ p ∧ p + 16384 ≤ s.base :=
  placed.inside p member

/-- Different headers do not overlap. -/
theorem PagesAt.headers_apart (placed : PagesAt s pages) (pMember : p ∈ pages) (qMember : q ∈ pages)
    (iBound : i < numObjSlots) (jBound : j < numObjSlots) (different : ¬ (p = q ∧ i = j)) :
    objHeader p i + 48 ≤ objHeader q j ∨ objHeader q j + 48 ≤ objHeader p i := by
  rcases placed.eq_or_apart pMember qMember with rfl | apart
  · rw [objHeader_eq, objHeader_eq]
    omega
  · have := objHeader_bounds (p := p) iBound
    have := objHeader_bounds (p := q) jBound
    omega

theorem PagesAt.header_inj (placed : PagesAt s pages) (pMember : p ∈ pages) (qMember : q ∈ pages)
    (iBound : i < numObjSlots) (jBound : j < numObjSlots) (same : objHeader p i = objHeader q j) :
    p = q ∧ i = j := by
  by_contra different
  have := placed.headers_apart pMember qMember iBound jBound different
  omega

/-- The place of a header in a page. -/
def InPage (pages : List Nat) (h : Nat) : Prop :=
  ∃ p ∈ pages, ∃ i, i < numObjSlots ∧ h = objHeader p i

theorem InPage.mono {more : List Nat} {h : Nat} (inPage : InPage pages h)
    (subset : ∀ p ∈ pages, p ∈ more) : InPage more h := by
  obtain ⟨p, member, i, bound, same⟩ := inPage
  exact ⟨p, subset p member, i, bound, same⟩

theorem PagesAt.header_bounds (placed : PagesAt s pages) {h : Nat} (inPage : InPage pages h) :
    20544 ≤ h ∧ h + 48 ≤ s.base := by
  obtain ⟨p, member, i, bound, rfl⟩ := inPage
  have := placed.bounds member
  have := objHeader_bounds (p := p) bound
  omega

theorem PagesAt.apart_or_eq (placed : PagesAt s pages) {h h' : Nat} (inPage : InPage pages h)
    (inPage' : InPage pages h') : h = h' ∨ (h + 48 ≤ h' ∨ h' + 48 ≤ h) := by
  obtain ⟨p, member, i, bound, rfl⟩ := inPage
  obtain ⟨q, member', j, bound', rfl⟩ := inPage'
  by_cases same : p = q ∧ i = j
  · obtain ⟨rfl, rfl⟩ := same
    exact .inl rfl
  · exact .inr (placed.headers_apart member member' bound bound' same)

/-- A header is in no page's list entry or slot map. -/
theorem PagesAt.header_apart (placed : PagesAt s pages) {h : Nat} (inPage : InPage pages h)
    (member : p ∈ pages) : p + 64 ≤ h ∨ h + 48 ≤ p := by
  obtain ⟨q, qMember, i, bound, rfl⟩ := inPage
  have := objHeader_bounds (p := q) bound
  rcases placed.eq_or_apart member qMember with rfl | apart
  · omega
  · omega

end Places

/-! ## The lists -/

/-- The list of pages. `init_obj_allocation_records` clears the backward link of a page
again, and nothing follows these. -/
structure PageList (m : Mem) (lq : Nat) (pages : List Nat) : Prop where
  first : m.read 8 (peFirst lq) = pages.headD 0
  linked : ∃ prev, Linked (fun p => m.read 8 (leNextOptr p)) prev 0 pages 0
  tail : m.read 8 (peTail lq) = pages.getLastD 0

/-- A header in a page that knows its slot. -/
def Filled (m : Mem) (pages : List Nat) (h : Nat) : Prop :=
  ∃ p ∈ pages, ∃ i, i < numObjSlots ∧ h = objHeader p i ∧ m.read 2 (slotIdAddr h) = i

/-- Both lists, of the pages and of the headers in them. -/
structure Lists (s : Mapping) (m : Mem) (pages headers : List Nat) : Prop where
  pagesAt : PagesAt s pages
  firstPage : pages.head? = some firstRecords
  pageList : PageList m s.shmem.objAllocs pages
  headerList : ListAt m s.shmem.objHeaders headers
  filled : ∀ h ∈ headers, Filled m pages h

/-- The slot map of a page: listed headers have their bit, and `available_slots` is the
number of clear ones. -/
structure SlotMap (m : Mem) (headers : List Nat) (p : Nat) : Prop where
  used : ∀ i, i < numObjSlots → objHeader p i ∈ headers → bit m (objAllocBitset p) i = true
  available : m.read 2 (availableSlotsAddr p) + countBits m (objAllocBitset p) 0 numObjSlots =
    numObjSlots

/-- The lists with the slot maps. `pe_tail` may be a header that is no longer on the list. -/
structure Shape (s : Mapping) (m : Mem) (pages headers : List Nat) : Prop
    extends Lists s m pages headers where
  maps : ∀ p ∈ pages, SlotMap m headers p
  tailIn : headers ≠ [] → InPage pages (m.read 8 (peTail s.shmem.objHeaders))
  tail : headers ≠ [] → m.read 8 (peTail s.shmem.objHeaders) = headers.getLastD 0 ∨
    m.read 8 (peTail s.shmem.objHeaders) ∉ headers

section Congr

variable {s : Mapping} {m m' : Mem} {pages headers headers' : List Nat} {p h : Nat}

theorem Filled.inPage (filled : Filled m pages h) : InPage pages h := by
  obtain ⟨p, member, i, bound, same, _⟩ := filled
  exact ⟨p, member, i, bound, same⟩

theorem Lists.inPage (lists : Lists s m pages headers) (member : h ∈ headers) : InPage pages h :=
  (lists.filled h member).inPage

theorem PageList.congr {lq : Nat} (list : PageList m lq pages)
    (queue : ∀ a, lq ≤ a → a < lq + 16 → m' a = m a)
    (links : ∀ p ∈ pages, ∀ a, p ≤ a → a < p + 8 → m' a = m a) : PageList m' lq pages := by
  obtain ⟨prev, linked⟩ := list.linked
  refine ⟨?_, ⟨prev, linked.congr (fun p member => ?_) fun _ _ => rfl⟩, ?_⟩
  · rw [← list.first]
    exact Mem.read_congr fun a low high => queue a low (by unfold peFirst at high; omega)
  · exact Mem.read_congr fun a low high => links p member a low high
  · rw [← list.tail]
    exact Mem.read_congr fun a low high => queue a (by unfold peTail at low; omega)
      (by unfold peTail at high; omega)

/-- A list of headers depends on the links of its elements and on the queue. -/
theorem ListAt.congr {lq : Nat} {l : List Nat} (list : ListAt m lq l)
    (queue : ∀ a, lq ≤ a → a < lq + 8 → m' a = m a)
    (links : ∀ h ∈ l, ∀ a, h ≤ a → a < h + 16 → m' a = m a) : ListAt m' lq l := by
  refine ⟨?_, list.linked.congr (fun h member => ?_) (fun h member => ?_), list.notNull, list.bound,
    list.apart, list.queueApart⟩
  · rw [← list.first]
    exact Mem.read_congr fun a low high => queue a low high
  · exact Mem.read_congr fun a low high =>
      links h member a low (by unfold leNextOptr at high; omega)
  · exact Mem.read_congr fun a low high => links h member a (by unfold lePrevOptr at low; omega)
      (by unfold lePrevOptr at high; omega)

theorem Filled.congr (filled : Filled m pages h)
    (same : ∀ a, h + 16 ≤ a → a < h + 48 → m' a = m a) : Filled m' pages h := by
  obtain ⟨p, member, i, bound, place, slotId⟩ := filled
  refine ⟨p, member, i, bound, place, Eq.trans (Mem.read_congr fun a low high => ?_) slotId⟩
  unfold slotIdAddr at low high
  exact same a (by omega) (by omega)

theorem bit_congr {bitset k : Nat} (same : m' (bitset + k / 8) = m (bitset + k / 8)) :
    bit m' bitset k = bit m bitset k := by
  rw [bit, bit, same]

theorem SlotMap.congr (map : SlotMap m headers p)
    (same : ∀ a, p + 16 ≤ a → a < p + 62 → m' a = m a)
    (subset : ∀ i, i < numObjSlots → objHeader p i ∈ headers' → objHeader p i ∈ headers) :
    SlotMap m' headers' p := by
  have bits : ∀ i, i < numObjSlots → bit m' (objAllocBitset p) i = bit m (objAllocBitset p) i := by
    intro i bound
    unfold numObjSlots at bound
    exact bit_congr (same _ (by unfold objAllocBitset; omega) (by unfold objAllocBitset; omega))
  have available : m'.read 2 (availableSlotsAddr p) = m.read 2 (availableSlotsAddr p) :=
    Mem.read_congr fun a low high => by
      unfold availableSlotsAddr at low high
      exact same a (by omega) (by omega)
  refine ⟨fun i bound onList => ?_, ?_⟩
  · rw [bits i bound]
    exact map.used i bound (subset i bound onList)
  · rw [available, countBits_congr (m := m) fun j below => bits _ (by omega)]
    exact map.available

theorem Mapping.Same.page (same : s.Same m m') (pagesAt : PagesAt s pages) (member : p ∈ pages)
    {a : Nat} (low : p ≤ a) (high : a < p + 16384) : m' a = m a := by
  have bounds := pagesAt.inside p member
  unfold sizeofRecords at bounds
  exact same.pages a (by omega) (by omega)

theorem Mapping.Same.header (same : s.Same m m') (pagesAt : PagesAt s pages)
    (inPage : InPage pages h) {a : Nat} (low : h ≤ a) (high : a < h + 48) : m' a = m a := by
  obtain ⟨p, member, i, bound, rfl⟩ := inPage
  have := objHeader_bounds (p := p) bound
  exact same.page pagesAt member (by omega) (by omega)

/-- The memories have the same in these pages and in the queues. -/
structure Mapping.SameOn (s : Mapping) (pages : List Nat) (m m' : Mem) : Prop where
  pages : ∀ p ∈ pages, ∀ a, p ≤ a → a < p + 16384 → m' a = m a
  queues : ∀ a, s.base + 560 ≤ a → a < s.base + 592 → m' a = m a

theorem Mapping.Same.on (same : s.Same m m') (pagesAt : PagesAt s pages) : s.SameOn pages m m' :=
  ⟨fun _ member _ low high => same.page pagesAt member low high, same.queues⟩

theorem Mapping.SameOn.header (same : s.SameOn pages m m') (inPage : InPage pages h) {a : Nat}
    (low : h ≤ a) (high : a < h + 48) : m' a = m a := by
  obtain ⟨p, member, i, bound, rfl⟩ := inPage
  have := objHeader_bounds (p := p) bound
  exact same.pages p member a (by omega) (by omega)

/-- The lists depend on the pages and the queues only. -/
theorem Lists.congr_on (lists : Lists s m pages headers) (same : s.SameOn pages m m') :
    Lists s m' pages headers := by
  refine ⟨lists.pagesAt, lists.firstPage, lists.pageList.congr ?_ ?_, lists.headerList.congr ?_ ?_,
    fun h member => (lists.filled h member).congr ?_⟩
  · intro a low high
    rw [s.objAllocs_eq] at low high
    exact same.queues a (by omega) (by omega)
  · exact fun p member a low high => same.pages p member a low (by omega)
  · intro a low high
    rw [s.objHeaders_eq] at low high
    exact same.queues a (by omega) (by omega)
  · exact fun h member a low high => same.header (lists.inPage member) low (by omega)
  · exact fun a low high => same.header (lists.inPage member) (by omega) high

theorem Shape.congr_on (shape : Shape s m pages headers) (same : s.SameOn pages m m') :
    Shape s m' pages headers := by
  have tail : m'.read 8 (peTail s.shmem.objHeaders) = m.read 8 (peTail s.shmem.objHeaders) := by
    rw [s.objHeaders_eq]
    unfold peTail
    exact Mem.read_congr fun a low high => same.queues a (by omega) (by omega)
  refine ⟨shape.toLists.congr_on same, fun p member => (shape.maps p member).congr ?_ ?_, ?_, ?_⟩
  · exact fun a low high => same.pages p member a (by omega) (by omega)
  · exact fun i _ onList => onList
  · rw [tail]
    exact shape.tailIn
  · rw [tail]
    exact shape.tail

theorem Shape.congr (shape : Shape s m pages headers) (same : s.Same m m') :
    Shape s m' pages headers := shape.congr_on (same.on shape.pagesAt)

end Congr

/-! ## Objects -/

/-- A named object: its block and the requested length. -/
structure Object where
  offset : Nat
  length : Nat
  name : ProgId
deriving DecidableEq

/-- The name in a header. -/
def NameAt (m : Mem) (h : Nat) (name : ProgId) : Prop :=
  m.bytesAt name.bytes.length (progIdAddr h) = name.bytes

/-- The header describes this object. -/
structure ObjectAt (m : Mem) (h : Nat) (object : Object) : Prop where
  name : NameAt m h object.name
  offset : m.read 8 (objOptrAddr h) = object.offset
  length : m.read 8 (lengthAddr h) = object.length

section Objects

variable {m m' : Mem} {h : Nat}

theorem NameAt.congr {name : ProgId} (nameAt : NameAt m h name)
    (same : ∀ a, h + 16 ≤ a → a < h + 48 → m' a = m a) : NameAt m' h name := by
  have short := name.bytes_length_le
  unfold progIdSize at short
  refine Eq.trans (Mem.bytesAt_congr fun a low high => same a ?_ ?_) nameAt
  · unfold progIdAddr at low
    omega
  · unfold progIdAddr at high
    omega

theorem ObjectAt.congr {object : Object} (objectAt : ObjectAt m h object)
    (same : ∀ a, h + 16 ≤ a → a < h + 48 → m' a = m a) : ObjectAt m' h object := by
  refine ⟨objectAt.name.congr same, ?_, ?_⟩
  · refine Eq.trans (Mem.read_congr fun a low high => ?_) objectAt.offset
    unfold objOptrAddr at low high
    exact same a (by omega) (by omega)
  · refine Eq.trans (Mem.read_congr fun a low high => ?_) objectAt.length
    unfold lengthAddr at low high
    exact same a (by omega) (by omega)

/-- The test of the search compares the names. -/
theorem NameAt.namedAt_iff {name : ProgId} {progId : CString} (nameAt : NameAt m h name) :
    namedAt m progId h = true ↔ name.toCString = progId := by
  have stored : m.bytesAt (name.chars.length + 1) (progIdAddr h) = name.chars ++ [0] := by
    simpa [NameAt, CString.bytes] using nameAt
  have chars : m.bytesAt name.chars.length (progIdAddr h) = name.chars := by
    rw [Mem.bytesAt_add] at stored
    exact (List.append_inj stored (by simp)).1
  have short : name.chars.length < 2 ^ 64 := name.short.trans (by decide)
  have length : strlen m (2 ^ 64) (progIdAddr h) = name.chars.length :=
    strlen_eq name.nonzero stored short
  have ext : name.toCString = progId ↔ name.chars = progId.chars := by
    obtain ⟨⟨_, _⟩, _⟩ := name
    cases progId
    simp
  rw [namedAt, Bool.and_eq_true, beq_iff_eq, beq_iff_eq, length, ext]
  constructor
  · rintro ⟨sameLength, same⟩
    rw [← chars, sameLength, same]
  · intro same
    rw [← same]
    exact ⟨rfl, chars⟩

end Objects

end Lupin.Alloc
