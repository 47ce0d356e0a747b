import Lupin.Alloc.Allocate

/-!
# Searching by name and freeing

The search of `find_allocation` and `atomic_free_memory` on the list of headers, and what a
free makes of a sound state. The first of several headers cannot be taken off the list: its
entries write through a null pointer.
-/

namespace Lupin.Alloc

open Lupin.Memory Lupin.HeapIndex Lupin.LevelTree Lupin.Buddy Lupin.Log Lupin.LinkedList

/-! ## Loops over a list -/

section Search

variable {m : Mem} {headers : List Nat} {progId : CString}

/-- The loop goes through the entries in the order of the list. -/
theorem walkList_eq {test : Nat → Bool} {prev : Nat → Nat} {before h rounds : Nat} {rest : List Nat}
    (linked : Linked (fun e => m.read 8 (leNextOptr e)) prev before (h :: rest) 0)
    (notNull : ∀ e ∈ h :: rest, e ≠ 0) (enough : (h :: rest).length ≤ rounds) :
    walkList m test rounds h = some ((h :: rest).find? test) := by
  induction rest generalizing before h rounds with
  | nil =>
      obtain ⟨rounds, rfl⟩ := Nat.exists_eq_add_of_le' (show 1 ≤ rounds from enough)
      have last : m.read 8 (leNextOptr h) = 0 := linked.2.1
      rw [walkList]
      by_cases found : test h = true
      · rw [if_pos found, List.find?_cons_of_pos found]
      · rw [if_neg found, if_pos last, List.find?_cons_of_neg found, List.find?_nil]
  | cons h' rest inductionHypothesis =>
      obtain ⟨rounds, rfl⟩ := Nat.exists_eq_add_of_le' (show 1 ≤ rounds by
        rw [List.length_cons] at enough
        omega)
      have next : m.read 8 (leNextOptr h) = h' := linked.2.1
      have others : ∀ e ∈ h' :: rest, e ≠ 0 := fun e member =>
        notNull e (List.mem_cons_of_mem _ member)
      rw [walkList]
      by_cases found : test h = true
      · rw [if_pos found, List.find?_cons_of_pos found]
      · rw [if_neg found, next, if_neg (others h' List.mem_cons_self),
          List.find?_cons_of_neg found]
        refine inductionHypothesis linked.2.2 others ?_
        simp only [List.length_cons] at enough ⊢
        omega

theorem length_le_of_nodup {l : List Nat} {bound : Nat} (distinct : l.Nodup)
    (below : ∀ x ∈ l, x < bound) : l.length ≤ bound := by
  have subset : l ⊆ List.range bound := fun x member => List.mem_range.mpr (below x member)
  have fewer := (List.subperm_of_subset distinct subset).length_le
  rwa [List.length_range] at fewer

/-- The loop ends and finds the first entry with the property. -/
theorem walkQueue_eq {test : Nat → Bool} {lq : Nat} {l : List Nat} {prev : Nat → Nat}
    (first : m.read 8 (peFirst lq) = l.headD 0)
    (linked : Linked (fun e => m.read 8 (leNextOptr e)) prev 0 l 0) (notNull : ∀ e ∈ l, e ≠ 0)
    (distinct : l.Nodup) (below : ∀ e ∈ l, e < 2 ^ 64) :
    walkQueue m test lq = some (l.find? test) := by
  unfold walkQueue
  cases l with
  | nil => rw [if_pos (show m.read 8 (peFirst lq) = 0 from first), List.find?_nil]
  | cons h rest =>
      rw [List.headD_cons] at first
      rw [first, if_neg (notNull h List.mem_cons_self),
        walkList_eq linked notNull (length_le_of_nodup distinct below)]

theorem ListAt.walkQueue_eq {lq : Nat} (list : ListAt m lq headers) (test : Nat → Bool) :
    walkQueue m test lq = some (headers.find? test) :=
  Alloc.walkQueue_eq list.first list.linked list.notNull list.nodup fun e member => by
    have := list.bound e member
    omega

/-- The search ends and finds the first header with the name. -/
theorem findObjHeader_returns {s : MetaShmem} (list : ListAt m s.objHeaders headers)
    (progId : CString) :
    (findObjHeader s progId).Returns m [] (headers.find? (namedAt m progId)) := by
  unfold findObjHeader
  refine .get_bind ?_
  rw [list.walkQueue_eq]
  exact .pure m _

end Search

/-! ## The log of a free -/

/-- The log of a free. -/
def freeEntries (s : Mapping) (m : Mem) (pos : BuddyTreePos) (p slot : Nat) : List LogEntry :=
  .buddyFree pos :: (removeEntries m s.shmem.objHeaders (objHeader p slot) ++
    [.objHdrFree p slot (m.read 2 (availableSlotsAddr p) + 1)])

section Record

variable {s : Mapping} {m m' : Mem} {pages headers : List Nat} {p slot : Nat} {pos : BuddyTreePos}

theorem length_freeEntries (s : Mapping) (m : Mem) (pos : BuddyTreePos) (p slot : Nat) :
    (freeEntries s m pos p slot).length < redologEntries := by
  unfold freeEntries removeEntries
  split_ifs <;> simp [redologEntries]

/-- The links of a header and the queue are not in the log. -/
theorem removeEntries_congr (same : s.Same m m') {h : Nat} (low : firstRecords ≤ h)
    (high : h + 16 ≤ s.base) :
    removeEntries m' s.shmem.objHeaders h = removeEntries m s.shmem.objHeaders h := by
  unfold removeEntries
  rw [same.read_queue (by rw [s.objHeaders_eq]; unfold peFirst; omega)
      (by rw [s.objHeaders_eq]; unfold peFirst; omega),
    same.read_page (by unfold leNextOptr; omega) (by unfold leNextOptr; omega),
    same.read_page (by unfold lePrevOptr; omega) (by unfold lePrevOptr; omega)]

/-- The parts of a free: a listed header, in its page and slot, and the node of a block. -/
structure Freeing (s : Mapping) (m : Mem) (pages headers : List Nat)
    (p slot node : Nat) : Prop where
  isPage : p ∈ pages
  bound : slot < numObjSlots
  listed : objHeader p slot ∈ headers
  slotId : m.read 2 (slotIdAddr (objHeader p slot)) = slot
  isNode : Node s.arena.tree.order node

theorem Shape.freeing (shape : Shape s m pages headers) {h node : Nat} (listed : h ∈ headers)
    (isNode : Node s.arena.tree.order node) :
    ∃ p slot, h = objHeader p slot ∧ Freeing s m pages headers p slot node := by
  obtain ⟨p, page, slot, bound, rfl, slotId⟩ := shape.filled h listed
  exact ⟨p, slot, rfl, page, bound, listed, slotId, isNode⟩

theorem Freeing.entries_fit {node : Nat} (freeing : Freeing s m pages headers p slot node)
    (shape : Shape s m pages headers) :
    ∀ entry ∈ freeEntries s m (posOf node) p slot, entry.Fits := by
  have high := s.base_high
  have bounds := shape.pagesAt.bounds freeing.isPage
  have slotBound := freeing.bound
  have few := (shape.maps p freeing.isPage).available
  unfold numObjSlots at slotBound few
  have small := s.arena.tree.order_le
  have depth := freeing.isNode.size_le
  have index : node < 2 ^ 31 :=
    lt_of_lt_of_le freeing.isNode.2 (Nat.pow_le_pow_right (by decide) small)
  simp only [freeEntries, List.forall_mem_cons, List.forall_mem_append, List.not_mem_nil,
    IsEmpty.forall_iff, implies_true, and_true]
  refine ⟨⟨by simp only [posOf]; omega, by simp only [posOf]; omega⟩,
    removeEntries_fits shape.headerList freeing.listed (by rw [s.objHeaders_eq]; omega), ?_⟩
  simp only [LogEntry.Fits]
  omega

theorem blankEntry_within {log : Nat} :
    ∀ t ∈ blankEntry (entryAddr log 0), t.Within log (entryAddr log redologEntries) := by
  intro t member
  obtain ⟨i, inRange, rfl⟩ := List.mem_map.mp member
  have := List.mem_range.mp inRange
  refine Mem.scalar_within.mpr ⟨?_, ?_⟩
  · simp only [entryAddr]
    omega
  · simp only [entryAddr, redologEntries, sizeofLogEntry]
    omega

/-- Recording a free writes to the log only, so it records the entries of the memory it started
from. -/
theorem Freeing.atomicFreeMemory_eq {node : Nat} (freeing : Freeing s m pages headers p slot node)
    (shape : Shape s m pages headers) (d : MetaDram) {freeArg : RegionDesc}
    (found : headers.find? (namedAt m freeArg.progId) = some (objHeader p slot))
    (position :
      buddyFreeFindPos s.arena.toBuddyAlloc m freeArg.offset freeArg.length = posOf node) :
    atomicFreeMemory s.shmem d freeArg m =
      (do
        Shm.putAll (blankEntry (entryAddr s.shmem.redolog 0))
        let redologPos ← commitLog s.shmem.redolog (freeEntries s m (posOf node) p slot)
        let cur ← executeLog s.shmem.buddyAlloc s.shmem.redolog redologPos d.curObjRecs
        pure (0, cur) : Shm (Int × Option Nat)) m := by
  have base := s.base_low
  have high := s.base_high
  have bounds := shape.pagesAt.bounds freeing.isPage
  have slotBounds := objHeader_bounds (p := p) freeing.bound
  have first : firstRecords = 20480 := rfl
  have fits := freeing.entries_fit shape
  have count := (shape.maps p freeing.isPage).available
  unfold numObjSlots at count
  have valid : ¬ buddyTreeValid s.shmem.buddyAlloc.tree (posOf node) = false := by
    rw [Bool.not_eq_false, s.buddyAlloc_eq]
    exact posOf_valid.mpr freeing.isNode
  rw [← s.buddyAlloc_eq] at position
  rw [atomicFreeMemory, (findObjHeader_returns shape.headerList _).bind_eq, found]
  dsimp only
  rw [(Shm.Returns.get m).bind_eq, position, if_neg valid]
  refine Shm.bind_congr fun stores _ blanked => ?_
  obtain ⟨rfl, _⟩ := blanked.unique (Shm.Returns.putAll m _)
  have blank := @offLog_apply s.shmem.redolog _ blankEntry_within m
  have split := setAll_append s.shmem.redolog 0 [.buddyFree (posOf node)]
    (removeEntries m s.shmem.objHeaders (objHeader p slot) ++
      [.objHdrFree p slot (m.read 2 (availableSlotsAddr p) + 1)])
  rw [List.singleton_append] at split
  unfold freeEntries at fits ⊢
  rw [commitLog, split]
  simp only [bind_assoc, setAll_append]
  have firstEntry : ∀ entry ∈ [LogEntry.buddyFree (posOf node)], entry.Recordable := by
    intro entry isFirst
    rw [List.mem_singleton.mp isFirst]
    exact (fits _ List.mem_cons_self).recordable
  have single : setBuddyopLogEntry s.shmem.redolog 0 .buddyFree (posOf node) =
      setAll s.shmem.redolog 0 [.buddyFree (posOf node)] := by
    simp only [setAll, LogEntry.set, bind_pure]
  rw [single]
  refine setAll_bind_congr firstEntry (by simp [redologEntries]) fun m' logged => ?_
  have offLog := blank.trans logged
  have removeFits : ∀ entry ∈ removeEntries m s.shmem.objHeaders (objHeader p slot), entry.Fits :=
    fun entry member => fits entry (List.mem_cons_of_mem _ (List.mem_append_left _ member))
  have sameEntries := removeEntries_congr offLog.same (h := objHeader p slot) (by omega) (by omega)
  rw [Shm.bind_left_congr (recordListQueueRemove_eq (by omega) (by simp [redologEntries])
    (.inr (by rw [s.logEnd_eq, s.objHeaders_eq])) (.inl (by rw [s.redolog_eq]; omega))
    (by rw [sameEntries]; exact removeFits)), sameEntries]
  refine setAll_bind_congr (fun entry member => (removeFits entry member).recordable) ?_
    fun m'' later => ?_
  · have := length_freeEntries s m (posOf node) p slot
    simp only [freeEntries, List.length_cons, List.length_append, List.length_nil] at this ⊢
    omega
  have same := (offLog.trans later).same
  refine Shm.bind_left_congr (recordObjHdrFree_eq (by omega) (by omega) ?_ ?_ (by omega) _) _
  · exact (same.read_page (by unfold slotIdAddr; omega) (by unfold slotIdAddr; omega)).trans
      freeing.slotId
  · exact same.read_page (by unfold availableSlotsAddr; omega) (by unfold availableSlotsAddr; omega)

end Record

/-! ## Executing a free -/

/-- Stores beside the log and the tree. The removal of the last header also writes to the first
bytes of the mapping. -/
def Mapping.SparesTree (s : Mapping) (stores : List Store) : Prop :=
  ∀ t ∈ stores, t.Within 0 s.base ∨ t.Within (s.base + 560) (s.base + 592)

section Execute

variable {s : Mapping} {m m' : Mem} {pages headers : List Nat} {p slot node : Nat}
  {stores : List Store}

theorem Mapping.SparesTree.sparesLog (spares : s.SparesTree stores) : s.SparesLog stores := by
  intro t member
  rw [s.logEnd_eq, s.redolog_eq]
  exact (spares t member).imp (fun below => below.2) fun above => above.1

theorem Mapping.SparesTree.tree_same (spares : s.SparesTree stores) (m : Mem) {a : Nat}
    (inTree : s.arena.tree.bits ≤ a) : m.apply stores a = m a := by
  have bits := s.bits_eq
  refine Mem.apply_of_not_covers (fun t member => ?_) m
  rcases spares t member with below | above
  · exact below.not_covers (.inr (by omega))
  · exact above.not_covers (.inr (by omega))

theorem unlinkStores_congr (same : s.Same m m') {h : Nat} (low : firstRecords ≤ h)
    (high : h + 16 ≤ s.base) :
    unlinkStores m' s.shmem.objHeaders h = unlinkStores m s.shmem.objHeaders h := by
  unfold unlinkStores
  rw [same.read_queue (by rw [s.objHeaders_eq]; unfold peFirst; omega)
      (by rw [s.objHeaders_eq]; unfold peFirst; omega),
    same.read_page (by unfold leNextOptr; omega) (by unfold leNextOptr; omega),
    same.read_page (by unfold lePrevOptr; omega) (by unfold lePrevOptr; omega)]

/-- The header is off the list and its slot is free. Headers keep what they hold, and `pe_tail`
stays. -/
structure Freed (s : Mapping) (m m' : Mem) (pages headers : List Nat) (h : Nat) : Prop where
  shape : Shape s m' pages (headers.erase h)
  bodies : ∀ x, InPage pages x → ∀ a, x + 16 ≤ a → a < x + 48 → m' a = m a
  tail : m'.read 8 (peTail s.shmem.objHeaders) = m.read 8 (peTail s.shmem.objHeaders)
  slot : ∃ p ∈ pages, 0 < m'.read 2 (availableSlotsAddr p)

/-- What the entries behind the first one do, from a memory with the pages and queues they were
recorded from. -/
theorem Freeing.executes_rest (freeing : Freeing s m pages headers p slot node)
    (shape : Shape s m pages headers)
    (removable : headers = [objHeader p slot] ∨ headers.head? ≠ some (objHeader p slot))
    (same : s.Same m m') (b : BuddyAlloc) (curObjRecs : Option Nat) :
    ∃ stores, (executeEntries b (removeEntries m s.shmem.objHeaders (objHeader p slot) ++
        [.objHdrFree p slot (m.read 2 (availableSlotsAddr p) + 1)]) curObjRecs).Returns m' stores
        curObjRecs ∧
      s.SparesTree stores ∧ Freed s m (m'.apply stores) pages headers (objHeader p slot) := by
  have low := s.base_low
  have first : firstRecords = 20480 := rfl
  have pBounds := shape.pagesAt.bounds freeing.isPage
  have hBounds := objHeader_bounds (p := p) freeing.bound
  have inPage : InPage pages (objHeader p slot) := ⟨p, freeing.isPage, slot, freeing.bound, rfl⟩
  have shape' := shape.congr same
  have distinct := shape.headerList.nodup
  have unlinked := executeEntries_unlink (b := b) curObjRecs shape.headerList freeing.listed
    removable m'
  rw [← unlinkStores_congr same (by omega) (by omega)] at unlinked
  have afterUnlink := shape'.unlink freeing.listed removable
  have queueTail : ∀ a, s.base + 568 ≤ a →
      m'.apply (unlinkStores m' s.shmem.objHeaders (objHeader p slot)) a = m' a := fun a above =>
    shape'.unlink_queue freeing.listed above
  have bodies : ∀ x, InPage pages x → ∀ a, x + 16 ≤ a → a < x + 48 →
      m'.apply (unlinkStores m' s.shmem.objHeaders (objHeader p slot)) a = m' a :=
    fun x xIn a above below => shape'.unlink_body freeing.listed xIn above below
  have pageKept : ∀ a, p ≤ a → a < p + 64 →
      m'.apply (unlinkStores m' s.shmem.objHeaders (objHeader p slot)) a = m' a :=
    fun a above below => shape'.unlink_page freeing.listed freeing.isPage above below
  have unlinkBeside : s.SparesTree (unlinkStores m' s.shmem.objHeaders (objHeader p slot)) := by
    intro t stored
    rcases unlinkStores_within shape'.headerList freeing.listed t stored with atStart | atQueue |
      ⟨x, onList, atEntry⟩
    · exact .inl (atStart.mono le_rfl (by omega))
    · rw [s.objHeaders_eq] at atQueue
      exact .inr (atQueue.mono le_rfl (by omega))
    · have := shape.pagesAt.header_bounds (shape.inPage onList)
      exact .inl (atEntry.mono (Nat.zero_le _) (by omega))
  generalize unlinkStores m' s.shmem.objHeaders (objHeader p slot) = unlink at *
  have count : (m'.apply unlink).read 2 (availableSlotsAddr p) =
      m.read 2 (availableSlotsAddr p) := by
    refine Eq.trans (Mem.read_congr fun a above below => ?_)
      (same.read_page (by unfold availableSlotsAddr; omega) (by unfold availableSlotsAddr; omega))
    unfold availableSlotsAddr at above below
    exact pageKept a (by omega) (by omega)
  have set : bit (m'.apply unlink) (objAllocBitset p) slot = true := by
    have slotFits := freeing.bound
    unfold numObjSlots at slotFits
    refine (bit_congr (pageKept _ ?_ ?_)).trans
      ((shape'.maps p freeing.isPage).used slot freeing.bound freeing.listed)
    · unfold objAllocBitset
      omega
    · unfold objAllocBitset
      omega
  have freed := executeEntry_objHdrFree (b := b) (m'.apply unlink) curObjRecs slot
    (m.read 2 (availableSlotsAddr p) + 1) (by omega : p ≠ 0)
  have afterFree := afterUnlink.freeSlot freeing.isPage freeing.bound set distinct.not_mem_erase
  have moreSlots := (afterUnlink.maps p freeing.isPage).available_free slot
  rw [count] at afterFree moreSlots
  have freeWithin := @hdrFreeStores_within (m'.apply unlink) p slot
    (m.read 2 (availableSlotsAddr p) + 1) freeing.bound
  generalize
    hdrFreeStores (m'.apply unlink) p slot (m.read 2 (availableSlotsAddr p) + 1) = free at *
  have freeKept : ∀ a, a < p + 16 ∨ p + 62 ≤ a →
      (m'.apply unlink).apply free a = m'.apply unlink a := fun a outside =>
    Mem.apply_of_not_covers (fun t stored => (freeWithin t stored).not_covers outside) _
  have both := executeEntries_concat unlinked (executeEntries_cons freed (executeEntries_nil _ _))
  rw [List.append_nil] at both
  refine ⟨unlink ++ free, both, ?_, ?_⟩
  · intro t stored
    rcases List.mem_append.mp stored with early | late
    · exact unlinkBeside t early
    · exact .inl ((freeWithin t late).mono (Nat.zero_le _) (by omega))
  · rw [Mem.apply_append]
    refine ⟨afterFree, fun x xIn a above below => ?_, Mem.read_congr fun a above below => ?_,
      p, freeing.isPage, by omega⟩
    · have fromPage := shape.pagesAt.header_apart xIn freeing.isPage
      rw [freeKept a (by omega), bodies x xIn a above below,
        same.header shape.pagesAt xIn (by omega) below]
    · rw [s.objHeaders_eq] at above below
      unfold peTail at above below
      rw [freeKept a (by omega), queueTail a (by omega), same.queues a (by omega) (by omega)]

end Execute

/-! ## A free of a sound state -/

section Sound

variable {s : Mapping} {m : Mem} {pages headers : List Nat} {live : List (Nat × Nat)}

/-- The search leaves the state alone and names a listed header. -/
theorem Sound.search (sound : Sound s m pages headers live) (progId : CString) :
    (findObjHeader s.shmem progId).Returns m [] (headers.find? (namedAt m progId)) :=
  findObjHeader_returns sound.shape.headerList progId

/-- A free of a name that is not there does nothing, whatever it is to free. -/
theorem Sound.free_missing (sound : Sound s m pages headers live) (d : MetaDram)
    {freeArg : RegionDesc} (missing : headers.find? (namedAt m freeArg.progId) = none) :
    (atomicFreeMemory s.shmem d freeArg).Returns m [] (0, d.curObjRecs) := by
  have searched := sound.search freeArg.progId
  rw [missing] at searched
  exact searched.read_bind (.pure m _)

/-- Committing the log of a free of a live block. -/
theorem Sound.frees (sound : Sound s m pages headers live) (d : MetaDram) {freeArg : RegionDesc}
    {h : Nat} (found : headers.find? (namedAt m freeArg.progId) = some h)
    (isLive : (freeArg.offset, freeArg.length) ∈ live) :
    ∃ p slot node logged released, h = objHeader p slot ∧
      Freeing s m pages headers p slot node ∧
      Committed (m.apply logged) s.shmem.redolog (freeEntries s m (posOf node) p slot) ∧
      OffLog s.shmem.redolog m (m.apply logged) ∧
      (buddyFreeApply s.arena.toBuddyAlloc (posOf node)).Returns (m.apply logged) released () ∧
      s.InTree released ∧
      (∃ virtualSlots blocks : BlockSet s.arena.tree.order,
        CoversFrom virtualSlots (2 ^ (s.arena.tree.order - 1) + s.arena.blocks) ∧
          AllocInvariant s.arena virtualSlots ⟨m.apply logged, live⟩ blocks ∧
          blocks.taken node = true ∧
          AllocInvariant s.arena virtualSlots
            ⟨(m.apply logged).apply released, live.erase (freeArg.offset, freeArg.length)⟩
            (blocks.erase node)) ∧
      ∀ stores result, executeEntries s.shmem.buddyAlloc (freeEntries s m (posOf node) p slot)
          d.curObjRecs (m.apply logged) = (stores, result) → s.SparesLog stores →
        atomicFreeMemory s.shmem d freeArg m =
          (logged ++ stores, result.map fun cur => (0, cur)) := by
  obtain ⟨virtualSlots, blocks, atEnd, invariant⟩ := sound.tree
  obtain ⟨node, _, at_, position, _⟩ := invariant.release atEnd isLive
  obtain ⟨p, slot, rfl, freeing⟩ :=
    sound.shape.freeing (List.mem_of_find?_eq_some found) at_.node
  have fits := freeing.entries_fit sound.shape
  have few := length_freeEntries s m (posOf node) p slot
  have recorded := freeing.atomicFreeMemory_eq sound.shape d found position
  have blank := Shm.Returns.putAll m (blankEntry (entryAddr s.shmem.redolog 0))
  have blankOff := @offLog_apply s.shmem.redolog _ blankEntry_within m
  generalize blankEntry (entryAddr s.shmem.redolog 0) = blanks at *
  obtain ⟨written, committing, within, committed⟩ :=
    @commitLog_spec s.shmem.redolog _ fits few (m.apply blanks)
  have offLog : OffLog s.shmem.redolog m (m.apply (blanks ++ written)) := by
    rw [Mem.apply_append]
    exact blankOff.trans (offLog_apply within _)
  have before : AllocInvariant s.arena virtualSlots ⟨m.apply (blanks ++ written), live⟩ blocks :=
    invariant.congr fun a inTree => offLog.tree inTree
  obtain ⟨node', released, at', _, returns, after, _⟩ := before.release atEnd isLive
  obtain rfl : node' = node := at'.blockNode_eq.symm.trans at_.blockNode_eq
  rw [← Mem.apply_append] at committed
  refine ⟨p, slot, node', blanks ++ written, released, rfl, freeing, committed, offLog, returns, ?_,
    ⟨virtualSlots, blocks, atEnd, before, ?_, after⟩, fun stores result executed spares => ?_⟩
  · have emits := buddyTreeRelease_emits (t := s.arena.tree) (posOf node')
      (m.apply (blanks ++ written))
    rw [show (buddyTreeRelease s.arena.tree (posOf node')).stores (m.apply (blanks ++ written)) =
      released from returns.stores_eq] at emits
    exact emits
  · rw [← at'.blockNode_eq]
    exact before.taken isLive
  · have ran : executeLog s.shmem.buddyAlloc s.shmem.redolog
        ((freeEntries s m (posOf node') p slot).length + 1) d.curObjRecs
        (m.apply (blanks ++ written)) = (stores, result) := by
      refine
        (committed.execute_eq (fun entry member => (fits entry member).readable) few ?_).2.trans
        executed
      rw [Shm.stores, executed]
      exact spares
    rw [Mem.apply_append] at ran
    rw [recorded, blank.bind_apply, committing.bind_apply, Shm.bind_pure_apply ran,
      List.append_assoc]

theorem executeEntry_buddyFree {released : List Store} {node : Nat}
    (returns : (buddyFreeApply s.arena.toBuddyAlloc (posOf node)).Returns m released ())
    (curObjRecs : Option Nat) :
    (executeEntry s.shmem.buddyAlloc curObjRecs (.buddyFree (posOf node))).Returns m released
      curObjRecs := by
  rw [executeEntry, s.buddyAlloc_eq]
  have both := returns.bind (f := fun _ => pure curObjRecs) (.pure _ _)
  rwa [List.append_nil] at both

/-- A free of a live block that is not a page's takes the block, the header and its slot back,
unless the header is the first of several. -/
theorem Sound.free (sound : Sound s m pages headers live) (d : MetaDram) {freeArg : RegionDesc}
    {h : Nat} (found : headers.find? (namedAt m freeArg.progId) = some h)
    (removable : headers = [h] ∨ headers.head? ≠ some h)
    (isLive : (freeArg.offset, freeArg.length) ∈ live)
    (notPage : ∀ p ∈ pages, p ≠ firstRecords →
      (p, sizeofRecords) ≠ (freeArg.offset, freeArg.length)) :
    ∃ stores, (atomicFreeMemory s.shmem d freeArg).Returns m stores (0, d.curObjRecs) ∧
      Freed s m (m.apply stores) pages headers h ∧
      Sound s (m.apply stores) pages (headers.erase h)
        (live.erase (freeArg.offset, freeArg.length)) := by
  obtain ⟨p, slot, node, logged, released, rfl, freeing, _, offLog, returns, inTree,
    ⟨virtualSlots, blocks, atEnd, _, _, after⟩, runs⟩ := sound.frees d found isLive
  obtain ⟨rest, executed, spares, freed⟩ := freeing.executes_rest sound.shape removable
    (offLog.same.trans (Mapping.Same.of_inTree inTree _)) s.shmem.buddyAlloc d.curObjRecs
  have whole := executeEntries_cons (executeEntry_buddyFree returns d.curObjRecs) executed
  have ran := runs _ _ whole (List.forall_mem_append.mpr ⟨inTree.sparesLog, spares.sparesLog⟩)
  refine ⟨_, ran, ?_⟩
  rw [Mem.apply_append, Mem.apply_append]
  refine ⟨freed, freed.shape, ⟨virtualSlots, blocks.erase node, atEnd, ?_⟩,
    fun q isPage notFirst => ?_⟩
  · exact after.congr fun a above => spares.tree_same _ above
  · exact (List.mem_erase_of_ne (notPage q isPage notFirst)).mpr (sound.pagesLive q isPage notFirst)

/-- A free that finds the first of several headers never returns. -/
theorem Sound.free_first {h right : Nat} {back : List Nat}
    (sound : Sound s m pages (h :: right :: back) live) (d : MetaDram) {freeArg : RegionDesc}
    (named : namedAt m freeArg.progId h = true)
    (isLive : (freeArg.offset, freeArg.length) ∈ live) :
    ((atomicFreeMemory s.shmem d freeArg) m).2 = none := by
  obtain ⟨p, slot, node, logged, released, rfl, freeing, _, offLog, returns, inTree, _, runs⟩ :=
    sound.frees d (List.find?_cons_of_pos named) isLive
  have stops := executeEntries_unlink_first (b := s.shmem.buddyAlloc) d.curObjRecs
    sound.shape.headerList ((m.apply logged).apply released)
  have rest : executeEntries s.shmem.buddyAlloc
      (removeEntries m s.shmem.objHeaders (objHeader p slot) ++
        [.objHdrFree p slot (m.read 2 (availableSlotsAddr p) + 1)]) d.curObjRecs
      ((m.apply logged).apply released) = ([Mem.scalar 8 (lePrevOptr right) 0], none) := by
    rw [executeEntries_concat_eq]
    exact Shm.bind_of_none stops
  have whole : executeEntries s.shmem.buddyAlloc (freeEntries s m (posOf node) p slot) d.curObjRecs
      (m.apply logged) = (released ++ [Mem.scalar 8 (lePrevOptr right) 0], none) := by
    rw [freeEntries, executeEntries,
      (executeEntry_buddyFree returns d.curObjRecs).bind_apply, rest]
  have bounds := sound.shape.pagesAt.header_bounds (sound.shape.inPage (h := right) (by simp))
  have spares : s.SparesLog (released ++ [Mem.scalar 8 (lePrevOptr right) 0]) := by
    refine List.forall_mem_append.mpr ⟨inTree.sparesLog, ?_⟩
    rw [List.forall_mem_singleton]
    refine .inl ?_
    simp only [Mem.scalar, Mem.length_leBytes, lePrevOptr, s.redolog_eq]
    omega
  rw [runs _ _ whole spares]
  rfl

end Sound

end Lupin.Alloc
