import Lupin.Alloc.Free
import Lupin.Lib.Replay

/-!
# Executing a log again

A log stays in its array after its execution, so `recover_with_redolog` executes it once more:
after a crash, and whenever a machine joins. The entries about the tree come first. Taking a
block that is taken and giving back one that is free leave the tree alone, and the entries
behind them replay from wherever their execution stopped.
-/

/-! ## The tree -/

namespace Lupin.Buddy

open Lupin.Memory Lupin.HeapIndex Lupin.LevelTree

section Tree

variable {a : Arena} {m : Mem} {virtualSlots blocks : BlockSet a.tree.order}
  {live : List (Nat × Nat)} {p : Nat} {block : Nat × Nat}

/-- Taking a block that is taken changes nothing. -/
theorem AllocInvariant.mark_again (invariant : AllocInvariant a virtualSlots ⟨m, live⟩ blocks)
    (at_ : BlockAt a p block) (member : block ∈ live) :
    ∃ stores, (buddyMallocApply a.toBuddyAlloc (posOf p)).Returns m stores block.1 ∧
      m.apply stores = m ∧ ∀ t ∈ stores, a.tree.bits ≤ t.addr := by
  have isTaken := invariant.taken member
  rw [at_.blockNode_eq] at isTaken
  obtain ⟨marks, marked, after, frame⟩ := buddyTreeMark_spec invariant.represents at_.node
    fun q above => Bool.eq_false_iff.mpr fun taken => blocks.apart q p taken isTaken above
  have same : Function.update blocks.taken p true = blocks.taken := by
    rw [← isTaken, Function.update_eq_self]
  rw [same] at after
  obtain ⟨stores, returns, inTree⟩ := @buddyMallocApply_returns a.toBuddyAlloc p at_.node m
  have both := marked.bind (f := fun _ => pure (addressForPosition a.toBuddyAlloc (posOf p)))
    (.pure _ _)
  rw [List.append_nil] at both
  obtain ⟨rfl, _⟩ := returns.unique both
  rw [← at_.address] at returns
  exact ⟨stores, returns, frame.ext invariant.represents after, inTree⟩

/-- Taking a block writes to the tree. -/
theorem buddyMallocApply_stores {b : BuddyAlloc} (node : Node b.tree.order p) {stores : List Store}
    {address : Nat} (returns : (buddyMallocApply b (posOf p)).Returns m stores address) :
    stores ≠ [] := by
  obtain ⟨_, _, _, marked, _, rfl⟩ := returns.of_bind
  unfold buddyTreeMark at marked
  simp only [buddyTreeInternalPositionTree_posOf node] at marked
  obtain ⟨written, _, _, writes, _, rfl⟩ := marked.of_bind
  obtain ⟨rfl, _⟩ := writes.unique (writeToInternalPosition_returns b.tree m p _)
  simp [fieldWrite, clearStores_ne_nil]

theorem level_erase_self (isTaken : blocks.taken p = true) (levels : Nat) :
    level (blocks.erase p).taken levels p = 0 := by
  rw [level_eq_zero_iff]
  intro j n _ under
  change Function.update blocks.taken p false j = false
  by_cases here : j = p
  · rw [here, Function.update_self]
  · rw [Function.update_of_ne here]
    cases n with
    | zero => exact absurd (by simpa using under) here
    | succ n =>
        exact Bool.eq_false_iff.mpr fun taken =>
          blocks.apart p j isTaken taken ⟨(blocks.node p isTaken).1, n, under⟩

/-- Giving a block back writes to the tree. -/
theorem AllocInvariant.release_stores {live' : List (Nat × Nat)} {stores : List Store}
    (before : AllocInvariant a virtualSlots ⟨m, live⟩ blocks) (isTaken : blocks.taken p = true)
    (after : AllocInvariant a virtualSlots ⟨m.apply stores, live'⟩ (blocks.erase p)) :
    stores ≠ [] := by
  rintro rfl
  have node := blocks.node p isTaken
  have full := (before.represents p node).read_eq node (level_le _ _ _)
  have empty := (after.represents p node).read_eq node (level_le _ _ _)
  rw [level_of_taken isTaken] at full
  rw [level_erase_self isTaken] at empty
  have := node.height_pos
  exact absurd (full.symm.trans empty) (by omega)

/-- Giving a block back that is free changes nothing. -/
theorem AllocInvariant.release_again (invariant : AllocInvariant a virtualSlots ⟨m, live⟩ blocks)
    (node : Node a.tree.order p) (free : level blocks.taken (height a.tree.order p) p = 0) :
    (buddyFreeApply a.toBuddyAlloc (posOf p)).Returns m [] () := by
  have positive := node.height_pos
  have status : readFromInternalPosition m a.tree.bits
      ⟨height a.tree.order p, fieldStart a.tree.order p⟩ = 0 := by
    rw [(invariant.represents p node).read_eq node (level_le _ _ _), free]
  unfold buddyFreeApply buddyTreeRelease
  simp only [buddyTreeInternalPositionTree_posOf node]
  refine .get_bind ?_
  rw [status, if_pos (by omega)]
  exact .pure _ _

end Tree

end Lupin.Buddy

/-! ## The array -/

namespace Lupin.Log

open Lupin.Memory

/-- A committed log depends on its array only. -/
theorem Committed.congr {m m' : Mem} {log : Nat} {entries : List LogEntry}
    (committed : Committed m log entries) (readable : ∀ entry ∈ entries, entry.Readable)
    (few : entries.length < redologEntries)
    (same : ∀ a, log ≤ a → a < entryAddr log redologEntries → m' a = m a) :
    Committed m' log entries := by
  have inside : entryAddr log (entries.length + 1) ≤
      entryAddr log redologEntries := entryAddr_le few
  rw [entryAddr_succ] at inside
  unfold sizeofLogEntry at inside
  have start : log ≤ entryAddr log entries.length := Nat.le_add_right _ _
  refine ⟨fun i entry isEntry t isPart => ?_, ?_, ?_⟩
  · have bound : i + 1 ≤ redologEntries := by
      have := (List.getElem?_eq_some_iff.mp isEntry).1
      omega
    have here : entryAddr log i + sizeofLogEntry ≤ entryAddr log redologEntries := by
      rw [← entryAddr_succ]
      exact entryAddr_le bound
    have within := entry.parts_within (readable entry (List.mem_of_getElem? isEntry)) _ t isPart
    exact (committed.written i entry isEntry t isPart).congr fun a covers => same a
      ((Nat.le_add_right _ _).trans (within.1.trans covers.1))
      (lt_of_lt_of_le covers.2 (within.2.trans here))
  · rw [← committed.commit]
    exact Mem.read_congr fun a low high => same a (by omega) (by omega)
  · have sum : utilChecksumCompute m' log (entries.length * sizeofLogEntry) none 0 =
        utilChecksumCompute m log (entries.length * sizeofLogEntry) none 0 := by
      refine utilChecksumCompute_congr (by simp) (by simp) (by unfold sizeofLogEntry; omega)
        (fun a low high => same a low ?_) 0
      have : entryAddr log entries.length =
        log + entries.length * sizeofLogEntry := by rw [entryAddr, Nat.mul_comm]
      omega
    rw [sum, ← committed.checksum]
    exact Mem.read_congr fun a low high => same a (by omega) (by omega)

end Lupin.Log

namespace Lupin.Alloc

open Lupin.Memory Lupin.HeapIndex Lupin.LevelTree Lupin.Buddy Lupin.Log Lupin.LinkedList

/-! ## Bytes of the metadata -/

/-- A byte of the metadata: below the first page, of one of these pages, or from the log on. -/
def Mapping.IsMeta (s : Mapping) (pages : List Nat) (a : Nat) : Prop :=
  a < firstRecords ∨ (∃ p ∈ pages, p ≤ a ∧ a < p + sizeofRecords) ∨ s.base ≤ a

/-- The stores stay in the metadata. -/
def Mapping.OnMeta (s : Mapping) (pages : List Nat) (stores : List Store) : Prop :=
  ∀ t ∈ stores, ∀ a, t.Covers a → s.IsMeta pages a

/-- The area has no byte of the metadata. -/
def Mapping.Clear (s : Mapping) (pages : List Nat) (area : Nat → Prop) : Prop :=
  ∀ a, area a → ¬ s.IsMeta pages a

section Meta

variable {s : Mapping} {pages pages' : List Nat} {p h : Nat} {t : Store} {stores : List Store}
  {area : Nat → Prop}

theorem isMeta_of_page (isPage : p ∈ pages) (within : t.Within p (p + 16384)) {a : Nat}
    (covers : t.Covers a) : s.IsMeta pages a := by
  have := within.1
  have := within.2
  have := covers.1
  have := covers.2
  exact .inr (.inl ⟨p, isPage, by omega, by unfold sizeofRecords; omega⟩)

theorem isMeta_of_header (inPage : InPage pages h) (within : t.Within h (h + 48)) {a : Nat}
    (covers : t.Covers a) : s.IsMeta pages a := by
  obtain ⟨p, isPage, i, bound, rfl⟩ := inPage
  have := objHeader_bounds (p := p) bound
  exact isMeta_of_page isPage (within.mono (by omega) (by omega)) covers

theorem isMeta_of_behind (behind : s.base ≤ t.addr) {a : Nat} (covers : t.Covers a) :
    s.IsMeta pages a := .inr (.inr (behind.trans covers.1))

theorem Mapping.OnMeta.avoids (onMeta : s.OnMeta pages stores) (clear : s.Clear pages area) :
    ∀ t ∈ stores, t.Avoids area := fun t stored a covers inArea =>
  clear a inArea (onMeta t stored a covers)

theorem Mapping.Clear.agree_behind (clear : s.Clear pages area) {m m' : Mem}
    (agree : Mem.AgreeOff area m m') {a : Nat} (behind : s.base ≤ a) : m' a = m a :=
  agree a fun inArea => clear a inArea (.inr (.inr behind))

end Meta

/-! ## The entries behind those about the tree -/

section Place

variable {s : Mapping} {m : Mem} {pages pages' headers : List Nat} {p slot : Nat} {b : BuddyAlloc}

theorem executeEntries_middle (b : BuddyAlloc) (pre post : List LogEntry) (entry : LogEntry)
    (curObjRecs : Option Nat) :
    executeEntries b (pre ++ entry :: post) curObjRecs =
      executeEntries b pre curObjRecs >>= fun cur =>
        executeEntry b cur entry >>= executeEntries b post := by
  rw [executeEntries_concat_eq]
  rfl

/-- The byte of a slot's bit is in the slot map. -/
theorem slotByte_bounds (p : Nat) (bound : slot < numObjSlots) :
    p + 16 ≤ objAllocBitset p + slot / 8 ∧ objAllocBitset p + slot / 8 < p + 60 := by
  unfold numObjSlots at bound
  unfold objAllocBitset
  omega

theorem slotByte_owned {area : Nat → Prop} (clear : s.Clear pages area) (isPage : p ∈ pages)
    (bound : slot < numObjSlots) : ¬ area (objAllocBitset p + slot / 8) := by
  have inMap := slotByte_bounds p bound
  exact fun inArea =>
    clear _ inArea (.inr (.inl ⟨p, isPage, by omega, by unfold sizeofRecords; omega⟩))

/-- A header that is filled and linked, after entries with fixed stores. -/
theorem Shape.header_replays (shape : Shape s m pages headers) (pagesAt : PagesAt s pages')
    (subset : ∀ q ∈ pages, q ∈ pages') (isPage : p ∈ pages') (bound : slot < numObjSlots)
    {pre : List LogEntry} {before : List Store} {next : Option Nat → Option Nat}
    (first : ∀ cur, Shm.Constant (executeEntries b pre cur) before (next cur))
    (beforeMeta : s.OnMeta pages' before)
    (objPtr length availableSlots machineId : Nat) (name : ProgId) (m' : Mem) :
    ∃ stores, s.OnMeta pages' stores ∧ ∀ area, s.Clear pages' area → ∀ cur,
      Shm.Replays area (executeEntries b (pre ++
        .objHdrAlloc p objPtr length slot availableSlots name.bytes machineId ::
          appendEntries m s.shmem.objHeaders (objHeader p slot)) cur) m' stores (next cur) := by
  have low := s.base_low
  have pBounds := pagesAt.bounds isPage
  have hBounds := objHeader_bounds (p := p) bound
  have inMap := slotByte_bounds p bound
  have inPage : InPage pages' (objHeader p slot) := ⟨p, isPage, slot, bound, rfl⟩
  have tailIn : m.read 8 (peFirst s.shmem.objHeaders) ≠ 0 →
      InPage pages' (m.read 8 (peTail s.shmem.objHeaders)) := by
    intro notEmpty
    refine (shape.tailIn ?_).mono subset
    rintro rfl
    exact notEmpty shape.headerList.first
  have linked : ∀ cur, Shm.Constant (executeEntries b
      (appendEntries m s.shmem.objHeaders (objHeader p slot)) cur)
      (linkStores m s.shmem.objHeaders (objHeader p slot)) cur := fun cur m'' =>
    executeEntries_link cur (by omega) (by rw [s.objHeaders_eq]; omega) (fun notEmpty => by
      have := pagesAt.header_bounds (tailIn notEmpty)
      omega) m''
  simp only [executeEntries_middle]
  refine ⟨_, ?_, fun area clear cur => Shm.Replays.of_update (objAllocBitset p + slot / 8)
    (fun byte => byte ||| bitsetIndexMask (slot % 8)) (first cur) (fun m'' =>
      executeEntry_objHdrAlloc m'' (next cur) objPtr length slot availableSlots name.bytes machineId
        (by omega)) (linked (next cur)) (fun byte => by simp [BitVec.or_assoc]) ?_
    (slotByte_owned clear isPage bound) m'⟩
  · have filled : s.OnMeta pages' (hdrAllocStores (m'.apply before) p objPtr length slot
        availableSlots name.bytes machineId) := by
      intro t stored a covers
      rcases hdrAllocStores_within bound (name.bytes_length_le.trans (by decide)) t stored with
        atMap | atHeader
      · exact isMeta_of_page isPage (atMap.mono (by omega) (by omega)) covers
      · exact isMeta_of_header inPage (atHeader.mono (by omega) le_rfl) covers
    have links : s.OnMeta pages' (linkStores m s.shmem.objHeaders (objHeader p slot)) := by
      intro t stored a covers
      rcases linkStores_within t stored with atHeader | atQueue | ⟨notEmpty, atTail⟩
      · exact isMeta_of_header inPage (atHeader.mono le_rfl (by omega)) covers
      · rw [s.objHeaders_eq] at atQueue
        exact isMeta_of_behind ((Nat.le_add_right _ _).trans atQueue.1) covers
      · exact isMeta_of_header (tailIn notEmpty) (atTail.mono le_rfl (by omega)) covers
    exact List.forall_mem_append.mpr ⟨beforeMeta, List.forall_mem_append.mpr ⟨filled, links⟩⟩
  generalize objAllocBitset p + slot / 8 = x at inMap
  have header : ∀ t : Store, t.Within (objHeader p slot) (objHeader p slot + 48) → ¬ t.Covers x :=
    fun t within => within.not_covers (.inl (by omega))
  refine List.forall_mem_append.mpr ⟨?_, fun t stored => ?_⟩
  · refine List.forall_mem_append.mpr ⟨?_, fun t stored => ?_⟩
    · simp only [List.forall_mem_cons, List.not_mem_nil, IsEmpty.forall_iff, implies_true, and_true,
        Mem.scalar_covers, availableSlotsAddr, objOptrAddr, lengthAddr, machineIdAddr, slotIdAddr]
      omega
    · have short := name.bytes_length_le
      unfold progIdSize at short
      refine header t ((Mem.copy_within stored).mono ?_ ?_) <;> unfold progIdAddr <;> omega
  · rcases linkStores_within t stored with atHeader | atQueue | ⟨notEmpty, atTail⟩
    · exact header t (atHeader.mono le_rfl (by omega))
    · rw [s.objHeaders_eq] at atQueue
      exact atQueue.not_covers (.inl (by omega))
    · have := pagesAt.header_apart (tailIn notEmpty) isPage
      exact atTail.not_covers (by omega)

/-- A header that is taken off the list and whose slot is cleared. -/
theorem Freeing.replays {node : Nat} (freeing : Freeing s m pages headers p slot node)
    (shape : Shape s m pages headers)
    (removable : headers = [objHeader p slot] ∨ headers.head? ≠ some (objHeader p slot))
    (b : BuddyAlloc) (availableSlots : Nat) (m' : Mem) :
    ∃ stores, s.OnMeta pages stores ∧ ∀ area, s.Clear pages area → ∀ cur,
      Shm.Replays area (executeEntries b (removeEntries m s.shmem.objHeaders (objHeader p slot) ++
        [.objHdrFree p slot availableSlots]) cur) m' stores cur := by
  have pBounds := shape.pagesAt.bounds freeing.isPage
  simp only [executeEntries_middle]
  refine ⟨_, ?_, fun area clear cur => Shm.Replays.of_update (objAllocBitset p + slot / 8)
    (fun byte => byte &&& ~~~bitsetIndexMask (slot % 8))
    (executeEntries_unlink cur shape.headerList freeing.listed removable) (fun m'' =>
      executeEntry_objHdrFree m'' cur slot availableSlots (by omega))
    (fun m'' => executeEntries_nil m'' cur) (fun byte => by simp [BitVec.and_assoc]) ?_
    (slotByte_owned clear freeing.isPage freeing.bound) m'⟩
  · rw [List.append_nil]
    refine List.forall_mem_append.mpr ⟨fun t stored a covers => ?_, fun t stored a covers => ?_⟩
    · rcases unlinkStores_within shape.headerList freeing.listed t stored with atStart | atQueue |
        ⟨x, onList, atEntry⟩
      · have := covers.2
        have := atStart.2
        exact .inl (by unfold firstRecords Layout.futexAddrQueueSize; omega)
      · rw [s.objHeaders_eq] at atQueue
        exact isMeta_of_behind ((Nat.le_add_right _ _).trans atQueue.1) covers
      · exact isMeta_of_header (shape.inPage onList) (atEntry.mono le_rfl (by omega)) covers
    · exact isMeta_of_page freeing.isPage
        ((hdrFreeStores_within freeing.bound t stored).mono (by omega) (by omega)) covers
  · have slotFits := freeing.bound
    unfold numObjSlots at slotFits
    simp only [List.append_nil, List.forall_mem_singleton, Mem.scalar_covers, availableSlotsAddr,
      objAllocBitset]
    omega

end Place

/-! ## Recovery of a committed log -/

/-- None of these stores goes to the tree. -/
def Mapping.TreeDone (s : Mapping) (stores : List Store) : Prop :=
  ∀ t ∈ stores, t.addr < s.arena.tree.bits

/-- Recovery on any machine completes and leads to this memory, also when machines die in it, each
behind its stores to the tree. It leaves the area alone and does not depend on it. The machine has
the record page it had, or one of these. -/
def Recovers (s : Mapping) (pages : List Nat) (area : Nat → Prop) (m m' : Mem) : Prop :=
  Shm.Heals (recoverWithRedolog s.shmem.buddyAlloc s.shmem.redolog)
    (fun curObjRecs result => result.1 = 0 ∧
      ∀ p, result.2 = some p → p ∈ pages ∨ curObjRecs = some p)
    s.TreeDone area m m'

/-- When no store to the tree is left, those before the last one have been made. -/
theorem Mapping.TreeDone.length_le {s : Mapping} {before rest : List Store} {last : Store} {k : Nat}
    (done : s.TreeDone ((before ++ [last] ++ rest).drop k))
    (inTree : s.arena.tree.bits ≤ last.addr) : (before ++ [last]).length ≤ k := by
  by_contra early
  rw [List.length_append, List.length_singleton] at early
  have here : last ∈ (before ++ [last] ++ rest).drop k := by
    rw [List.append_assoc, List.drop_append_of_le_length (by omega)]
    simp
  have := done last here
  omega

section Recover

variable {s : Mapping} {m : Mem} {pages : List Nat} {entries : List LogEntry}
  {early rest : List Store} {area : Nat → Prop}

/-- Recovery executes the entries of a committed log. If they make the stores `rest`, whichever of
these memory has, behind stores to the tree that change nothing, then recovery makes up for
those it does not have. -/
theorem recovers_of_committed (committed : Committed m s.shmem.redolog entries)
    (readable : ∀ entry ∈ entries, entry.Readable) (few : entries.length < redologEntries)
    (spares : s.SparesLog rest) (onMeta : s.OnMeta pages rest) (clear : s.Clear pages area)
    (executes : ∀ early n, early ⊆ rest → Mem.AgreeOff area (m.apply early) n → ∀ curObjRecs,
      ∃ again cur', (executeEntries s.shmem.buddyAlloc entries curObjRecs).Returns n (again ++ rest)
        cur' ∧ (∀ p, cur' = some p → p ∈ pages ∨ curObjRecs = some p) ∧ s.InTree again ∧
        n.apply again = n)
    (subset : early ⊆ rest) : Recovers s pages area (m.apply early) (m.apply rest) := by
  have base := s.bits_eq
  refine ⟨fun n => ∃ early, early ⊆ rest ∧ Mem.AgreeOff area (m.apply early) n,
    ⟨early, subset, .refl _ _⟩, ?_, ?_⟩
  · rintro n n' ⟨early, subset, agree⟩ next
    exact ⟨early, subset, agree.trans next⟩
  rintro n ⟨early, subset, agree⟩ curObjRecs
  obtain ⟨again, cur', executed, isPage, inTree, unchanged⟩ :=
    executes early n subset agree curObjRecs
  have here : Committed n s.shmem.redolog entries := committed.congr readable few fun a low high =>
    (clear.agree_behind agree (s.redolog_eq ▸ low)).trans
      (Mem.apply_of_outside (fun t stored => spares t (subset stored)) low high m)
  have outside : s.SparesLog
      ((executeEntries s.shmem.buddyAlloc entries curObjRecs).stores n) := by
    rw [executed.stores_eq]
    exact List.forall_mem_append.mpr ⟨inTree.sparesLog, spares⟩
  have ran := (here.execute_eq readable few outside).1
  rw [executed] at ran
  refine ⟨again ++ rest, (0, cur'), (here.recover_eq few s.shmem.buddyAlloc curObjRecs).trans
    (Shm.bind_pure_apply ran fun cur => (0, cur)), ⟨rfl, isPage⟩, ?_, ?_, fun k done => ?_⟩
  · refine List.forall_mem_append.mpr ⟨fun t stored a covers inArea => ?_, onMeta.avoids clear⟩
    have inside := inTree t stored
    exact clear a inArea (isMeta_of_behind (by omega) covers)
  · rw [Mem.apply_append, unchanged, ← Mem.apply_apply_of_subset m subset]
    exact agree.apply rest
  · have reached : again.length ≤ k := by
      rcases List.eq_nil_or_concat' again with rfl | ⟨front, last, rfl⟩
      · exact Nat.zero_le _
      · exact done.length_le (inTree last (by simp))
    obtain ⟨j, rfl⟩ := Nat.exists_eq_add_of_le reached
    refine ⟨early ++ rest.take j, ?_, ?_⟩
    · exact List.append_subset.mpr ⟨subset, List.take_subset _ _⟩
    · simp only [List.take_length_add_append, Mem.apply_append, unchanged]
      exact agree.apply _

/-- Recovery leaves a log without a `COMMIT` alone. -/
theorem recovers_of_no_commit (clear : s.Clear pages area)
    (blank : ∀ i < redologEntries, m.read 4 (entryAddr s.shmem.redolog i) ≠ EntryType.commit.code) :
    Recovers s pages area m m := by
  refine ⟨Mem.AgreeOff area m, .refl _ _, fun n n' agree next => agree.trans next, ?_⟩
  intro n agree curObjRecs
  have tag : ∀ j, n.read 4 (entryAddr s.shmem.redolog j) = m.read 4 (entryAddr s.shmem.redolog j) :=
    fun j => Mem.read_congr fun a low _ => clear.agree_behind agree
      ((Nat.le_add_right s.base _).trans low)
  have scanned := @findCommit_skip n s.shmem.redolog 0 redologEntries 0 _
    (fun j _ bound => tag j ▸ blank j (by omega)) (Shm.Returns.pure _ _)
  rw [Nat.add_zero] at scanned
  have returns : (recoverWithRedolog s.shmem.buddyAlloc s.shmem.redolog curObjRecs).Returns n []
      (0, curObjRecs) := scanned.bind_eq
  exact ⟨[], _, returns, ⟨rfl, fun p isCur => .inr isCur⟩,
    fun t none => absurd none List.not_mem_nil, agree, fun k _ => by simpa using agree⟩

end Recover

/-! ## Recovery of an allocation and of a free -/

/-- The entries of an allocation behind those about the tree. -/
def placeEntries (s : Mapping) (m : Mem) (cur machineId length : Nat) (progId : CString) :
    List LogEntry :=
  (if 0 < m.read 2 (availableSlotsAddr cur) then
      [slotEntry m cur machineId (s.block m length) length progId]
    else
      appendEntries m s.shmem.objAllocs (s.block m sizeofRecords) ++
        [.initObjAllocRecs (s.block m sizeofRecords),
          .objHdrAlloc (s.block m sizeofRecords) (s.block m length) length 0 (numObjSlots - 1)
            progId.bytes machineId]) ++
    appendEntries m s.shmem.objHeaders (newHeader s m cur)

theorem allocEntries_split (s : Mapping) (m : Mem) (cur machineId length : Nat) (progId : CString) :
    allocEntries s m cur machineId length progId =
      markEntries s m cur length ++ placeEntries s m cur machineId length progId := by
  unfold allocEntries headerEntries markEntries placeEntries
  split <;> simp

section Operations

variable {s : Mapping} {m : Mem} {pages headers : List Nat} {live : List (Nat × Nat)} {d : MetaDram}
  {cur length : Nat} {name : ProgId}

theorem Recording.place_replays (recording : Recording s d m cur length name.toCString)
    (shape : Shape s m pages headers) (member : cur ∈ pages)
    (pageFree : m.read 2 (availableSlotsAddr cur) = 0 →
      PagesAt s (pages ++ [s.block m sizeofRecords])) (m' : Mem) :
    ∃ stores, s.OnMeta (newPages s m cur pages) stores ∧
      ∀ area, s.Clear (newPages s m cur pages) area → ∀ curObjRecs, ∃ cur',
        (∀ p, cur' = some p → p ∈ newPages s m cur pages ∨ curObjRecs = some p) ∧
        Shm.Replays area (executeEntries s.shmem.buddyAlloc
          (placeEntries s m cur d.machineId length name.toCString) curObjRecs) m' stores cur' := by
  unfold placeEntries newHeader newPages
  by_cases available : 0 < m.read 2 (availableSlotsAddr cur)
  · simp only [if_pos available]
    have nothing : ∀ cur, Shm.Constant (executeEntries s.shmem.buddyAlloc [] cur) [] cur :=
      fun cur m'' => executeEntries_nil m'' cur
    obtain ⟨stores, onMeta, replays⟩ := shape.header_replays shape.pagesAt
      (fun _ isPage => isPage) member (firstClearSlot_spec recording.counted available).1
      nothing (fun t none => absurd none List.not_mem_nil) (s.block m length) length
      (m.read 2 (availableSlotsAddr cur) - 1) d.machineId name m'
    exact ⟨stores, onMeta, fun area clear curObjRecs =>
      ⟨_, fun p isCur => .inr isCur, replays area clear curObjRecs⟩⟩
  · simp only [if_neg available]
    have pagesAt := pageFree (by omega)
    have low := s.base_low
    have isPage : s.block m sizeofRecords ∈ pages ++ [s.block m sizeofRecords] := by simp
    have bounds := pagesAt.bounds isPage
    generalize s.block m sizeofRecords = page at *
    obtain ⟨front, last, rfl, isLast⟩ := shape.pageList.exists_last shape.firstPage
    have lastPage : last ∈ front ++ [last] ++ [page] := by simp
    have lastBounds := pagesAt.bounds lastPage
    have linked : ∀ curObjRecs, Shm.Constant (executeEntries s.shmem.buddyAlloc
        (appendEntries m s.shmem.objAllocs page ++ [.initObjAllocRecs page]) curObjRecs)
        (linkStores m s.shmem.objAllocs page ++ initObjAllocationRecords page) (some page) := by
      intro curObjRecs m''
      have init := executeEntries_cons (b := s.shmem.buddyAlloc) (executeEntry_initObjAllocRecs
        (m''.apply (linkStores m s.shmem.objAllocs page)) curObjRecs (by omega : page ≠ 0))
        (executeEntries_nil _ _)
      rw [List.append_nil] at init
      exact executeEntries_concat (executeEntries_link curObjRecs (by omega)
        (by rw [s.objAllocs_eq]; omega) (fun _ => by omega) m'') init
    have linkedMeta : s.OnMeta (front ++ [last] ++ [page])
        (linkStores m s.shmem.objAllocs page ++ initObjAllocationRecords page) := by
      refine List.forall_mem_append.mpr ⟨fun t stored a covers => ?_, fun t stored a covers =>
        isMeta_of_page isPage (initObjAllocationRecords_within t stored) covers⟩
      rcases linkStores_within t stored with atPage | atQueue | ⟨_, atTail⟩
      · exact isMeta_of_page isPage (atPage.mono le_rfl (by omega)) covers
      · rw [s.objAllocs_eq] at atQueue
        exact isMeta_of_behind ((Nat.le_add_right _ _).trans atQueue.1) covers
      · rw [isLast] at atTail
        exact isMeta_of_page lastPage (atTail.mono le_rfl (by omega)) covers
    obtain ⟨stores, onMeta, replays⟩ := shape.header_replays pagesAt
      (fun q isPage => List.mem_append_left _ isPage) isPage (by decide : 0 < numObjSlots) linked
      linkedMeta (s.block m length) length (numObjSlots - 1) d.machineId name m'
    refine ⟨stores, onMeta, fun area clear curObjRecs =>
      ⟨some page, fun p isNew => .inl (Option.some.inj isNew ▸ isPage), ?_⟩⟩
    simpa only [List.append_assoc, List.cons_append, List.nil_append] using
      replays area clear curObjRecs

/-- The node and the block of a position that is found. -/
theorem Sound.blockAt (sound : Sound s m pages headers live) (hasBlock : s.HasBlock m length) :
    ∃ p, s.pos m length = posOf p ∧ BlockAt s.arena p (s.block m length, length) := by
  obtain ⟨_, _, atEnd, invariant⟩ := sound.tree
  obtain ⟨p, found, at_, _⟩ := invariant.find atEnd hasBlock
  have isPos : s.pos m length = posOf p := found
  rw [Mapping.block, isPos]
  exact ⟨p, rfl, at_⟩

/-- The entries about the tree change nothing once their blocks are taken. -/
theorem Sound.markEntries_again (sound : Sound s m pages headers live) (room : Room s m cur length)
    {m' : Mem} {virtualSlots blocks : BlockSet s.arena.tree.order} {others : List (Nat × Nat)}
    (invariant : AllocInvariant s.arena virtualSlots
      ⟨m', newBlocks s m cur length ++ others⟩ blocks) (curObjRecs : Option Nat) :
    ∃ stores, (executeEntries s.shmem.buddyAlloc (markEntries s m cur length) curObjRecs).Returns m'
        stores curObjRecs ∧ m'.apply stores = m' ∧ s.InTree stores := by
  have again : ∀ {n : Nat}, s.HasBlock m n → (s.block m n, n) ∈ newBlocks s m cur length ++ others →
      ∃ stores, (executeEntry s.shmem.buddyAlloc curObjRecs (.buddyAlloc (s.pos m n))).Returns m'
        stores curObjRecs ∧ m'.apply stores = m' ∧ s.InTree stores := by
    intro n hasBlock taken
    obtain ⟨p, isPos, at_⟩ := sound.blockAt hasBlock
    obtain ⟨stores, returns, same, inTree⟩ := invariant.mark_again at_ taken
    refine ⟨stores, ?_, same, inTree⟩
    rw [executeEntry, s.buddyAlloc_eq, isPos]
    have both := returns.bind (f := fun _ => pure curObjRecs) (.pure _ _)
    rwa [List.append_nil] at both
  unfold markEntries
  by_cases available : 0 < m.read 2 (availableSlotsAddr cur)
  · rw [if_pos available]
    obtain ⟨stores, returns, same, inTree⟩ := again room.object (by
      rw [newBlocks, if_pos available]
      exact List.mem_cons_self)
    have whole := executeEntries_cons returns (executeEntries_nil _ _)
    rw [List.append_nil] at whole
    exact ⟨stores, whole, same, inTree⟩
  · rw [if_neg available]
    obtain ⟨stores, returns, same, inTree⟩ := again room.object (by
      rw [newBlocks, if_neg available]
      simp)
    obtain ⟨stores', returns', same', inTree'⟩ := again (room.page (by omega)) (by
      rw [newBlocks, if_neg available]
      exact List.mem_cons_self)
    rw [← same] at returns'
    have whole :=
      executeEntries_cons returns (executeEntries_cons returns' (executeEntries_nil _ _))
    rw [List.append_nil] at whole
    refine ⟨stores ++ stores', whole, ?_, List.forall_mem_append.mpr ⟨inTree, inTree'⟩⟩
    rw [Mem.apply_append, same, same']

/-- The array holds a committed log. -/
def Mapping.Logged (s : Mapping) (m : Mem) : Prop :=
  ∃ entries, entries ≠ [] ∧ entries.length < redologEntries ∧
    (∀ entry ∈ entries, entry.Readable) ∧ Committed m s.shmem.redolog entries

theorem Mapping.Logged.congr {m' : Mem} (logged : s.Logged m)
    (same : ∀ a, s.base ≤ a → m' a = m a) : s.Logged m' := by
  obtain ⟨entries, some, few, readable, committed⟩ := logged
  exact ⟨entries, some, few, readable, committed.congr readable few fun a low _ => same a low⟩

/-- An allocation leaves its log. -/
theorem Sound.allocate_logged (sound : Sound s m pages headers live) (machine : OnMachine s d cur)
    (member : cur ∈ pages) (room : Room s m cur length) {stores : List Store}
    {result : Except Int Nat × Option Nat}
    (returns : (atomicAllocateMemoryLockheld s.shmem d length name.toCString).Returns m stores
      result) : s.Logged (m.apply stores) := by
  have recording := sound.recording machine member room.object room.page
    (name.short.le.trans (Nat.le_add_right _ _))
  obtain ⟨logged, marks, rest, returned, _, committed, _, _, inTree, proper, _⟩ :=
    recording.allocates sound.shape member fun full => sound.pagesAt (room.page full)
  obtain ⟨rfl, _⟩ := returns.unique returned
  have readable : ∀ entry ∈ allocEntries s m cur d.machineId length name.toCString,
      entry.Readable :=
    fun entry isEntry => (recording.allocEntries_recordable entry isEntry).readable
  have few := length_allocEntries s m cur d.machineId length name.toCString
  refine ⟨_, by simp [allocEntries], few, readable, ?_⟩
  rw [Mem.apply_append]
  refine committed.congr readable few fun a low high => Mem.apply_of_outside ?_ low high _
  exact List.forall_mem_append.mpr ⟨inTree.sparesLog, proper.sparesLog⟩

/-- So does a free that finds a header it can take off the list. -/
theorem Sound.free_logged (sound : Sound s m pages headers live) (d : MetaDram)
    {freeArg : RegionDesc} {h : Nat} (found : headers.find? (namedAt m freeArg.progId) = some h)
    (removable : headers = [h] ∨ headers.head? ≠ some h)
    (isLive : (freeArg.offset, freeArg.length) ∈ live) {stores : List Store}
    {result : Int × Option Nat}
    (returns : (atomicFreeMemory s.shmem d freeArg).Returns m stores result) :
    s.Logged (m.apply stores) := by
  obtain ⟨p, slot, node, logged, released, rfl, freeing, committed, offLog, returned, inTree, _,
    runs⟩ := sound.frees d found isLive
  obtain ⟨rest, executed, spares, _⟩ := freeing.executes_rest sound.shape removable
    (offLog.same.trans (Mapping.Same.of_inTree inTree _)) s.shmem.buddyAlloc d.curObjRecs
  have whole := executeEntries_cons (executeEntry_buddyFree returned d.curObjRecs) executed
  have spares : s.SparesLog (released ++ rest) :=
    List.forall_mem_append.mpr ⟨inTree.sparesLog, spares.sparesLog⟩
  obtain ⟨rfl, _⟩ := returns.unique (runs _ _ whole spares)
  have readable : ∀ entry ∈ freeEntries s m (posOf node) p slot, entry.Readable :=
    fun entry isEntry => (freeing.entries_fit sound.shape entry isEntry).readable
  have few := length_freeEntries s m (posOf node) p slot
  refine ⟨_, by simp [freeEntries], few, readable, ?_⟩
  rw [Mem.apply_append]
  exact committed.congr readable few fun a low high => Mem.apply_of_outside spares low high _

/-- A crash during an allocation, once its stores to the tree have been made: recovery
completes it. With all stores made, recovery changes nothing. None of this touches an area
apart from the metadata. -/
theorem Sound.allocate_recovers (sound : Sound s m pages headers live) (machine : OnMachine s d cur)
    (member : cur ∈ pages) (room : Room s m cur length) {stores : List Store}
    {result : Except Int Nat × Option Nat}
    (returns :
      (atomicAllocateMemoryLockheld s.shmem d length name.toCString).Returns m stores result)
    {k : Nat} (treeDone : s.TreeDone (stores.drop k)) {area : Nat → Prop}
    (clear : s.Clear (newPages s m cur pages) area) :
    Recovers s (newPages s m cur pages) area (m.apply (stores.take k)) (m.apply stores) ∧
      ∀ a, area a → m.apply (stores.take k) a = m a := by
  have recording := sound.recording machine member room.object room.page
    (name.short.le.trans (Nat.le_add_right _ _))
  have pageFree := fun full => sound.pagesAt (room.page full)
  obtain ⟨logged, marks, rest, returned, offLog, committed, executed, marked, inTree, proper, _⟩ :=
    recording.allocates sound.shape member pageFree
  obtain ⟨rfl, _⟩ := returns.unique returned
  obtain ⟨virtualSlots, blocks, atEnd, invariant⟩ := sound.tree
  have before : AllocInvariant s.arena virtualSlots ⟨m.apply logged, live⟩ blocks :=
    invariant.congr fun a above => offLog.tree above
  obtain ⟨blocks', after⟩ := markEntries_invariant before atEnd offLog room marked
  have readable : ∀ entry ∈ allocEntries s m cur d.machineId length name.toCString,
      entry.Readable :=
    fun entry isEntry => (recording.allocEntries_recordable entry isEntry).readable
  have few := length_allocEntries s m cur d.machineId length name.toCString
  -- the entries behind those about the tree made the stores `rest`
  obtain ⟨stores, onMeta, replays⟩ := recording.place_replays sound.shape member pageFree
    ((m.apply logged).apply marks)
  obtain rfl : rest = stores := by
    obtain ⟨_, _, replay⟩ := replays area clear d.curObjRecs
    have whole := executeEntries_concat marked replay.returns
    rw [← allocEntries_split] at whole
    exact List.append_cancel_left (executed.unique whole).1
  have reached : (logged ++ marks).length ≤ k := by
    obtain ⟨p, isPos, at_⟩ := sound.blockAt room.object
    have someMark : marks ≠ [] := by
      unfold markEntries at marked
      obtain ⟨first, _, more, one, _, rfl⟩ := marked.of_bind
      rw [isPos, executeEntry, s.buddyAlloc_eq] at one
      obtain ⟨_, _, _, applied, _, rfl⟩ := one.of_bind
      simp [buddyMallocApply_stores at_.node applied]
    obtain ⟨front, last, rfl⟩ := (List.eq_nil_or_concat' marks).resolve_left someMark
    rw [← List.append_assoc] at treeDone ⊢
    rw [← List.append_assoc] at treeDone
    exact treeDone.length_le (inTree last (by simp))
  obtain ⟨n, rfl⟩ := Nat.exists_eq_add_of_le reached
  have taken : (logged ++ (marks ++ rest)).take ((logged ++ marks).length + n) =
      logged ++ (marks ++ rest.take n) := by
    rw [← List.append_assoc, List.take_length_add_append, List.append_assoc]
  rw [taken]
  simp only [← List.append_assoc, Mem.apply_append]
  have bits := s.bits_eq
  have still := committed.congr readable few fun a low high =>
    Mem.apply_of_outside inTree.sparesLog low high _
  refine ⟨recovers_of_committed still readable few proper.sparesLog onMeta clear
    (fun early n' subset agree curObjRecs => ?_) (List.take_subset _ _), fun a inArea => ?_⟩
  · have properEarly : s.Proper early := fun t stored => proper t (subset stored)
    have again : AllocInvariant s.arena virtualSlots
        ⟨n', newBlocks s m cur length ++ live⟩ blocks' :=
      (after.congr fun a above => properEarly.tree_same _ above).congr fun a above =>
        clear.agree_behind agree (by omega)
    obtain ⟨noMarks, remarked, unchanged, inTree'⟩ := sound.markEntries_again room again curObjRecs
    obtain ⟨cur', isPage, replay⟩ := replays area clear curObjRecs
    have replayed := replay early n' subset agree
    rw [← unchanged] at replayed
    have whole := executeEntries_concat remarked replayed
    rw [← allocEntries_split] at whole
    exact ⟨noMarks, cur', whole, isPage, inTree', unchanged⟩
  · have before : a < s.base := by
      by_contra behind
      exact clear a inArea (.inr (.inr (by omega)))
    rw [Mem.apply_of_avoids
        (fun t stored => onMeta.avoids clear t (List.mem_of_mem_take stored)) inArea,
      Mem.apply_of_not_covers (fun t stored covers => by
        have := inTree t stored
        have := covers.1
        omega), offLog a (.inl before)]

/-- The same for a free. -/
theorem Sound.free_recovers (sound : Sound s m pages headers live) (d : MetaDram)
    {freeArg : RegionDesc} {h : Nat}
    (found : headers.find? (namedAt m freeArg.progId) = some h)
    (removable : headers = [h] ∨ headers.head? ≠ some h)
    (isLive : (freeArg.offset, freeArg.length) ∈ live) {stores : List Store}
    {result : Int × Option Nat}
    (returns : (atomicFreeMemory s.shmem d freeArg).Returns m stores result)
    {k : Nat} (treeDone : s.TreeDone (stores.drop k)) {area : Nat → Prop}
    (clear : s.Clear pages area) :
    Recovers s pages area (m.apply (stores.take k)) (m.apply stores) ∧
      ∀ a, area a → m.apply (stores.take k) a = m a := by
  obtain ⟨p, slot, node, logged, released, rfl, freeing, committed, offLog, returned, inTree,
    ⟨virtualSlots, blocks, atEnd, before, isTaken, after⟩, runs⟩ := sound.frees d found isLive
  have same := offLog.same.trans (Mapping.Same.of_inTree inTree _)
  obtain ⟨rest, executed, spares, _⟩ :=
    freeing.executes_rest sound.shape removable same s.shmem.buddyAlloc d.curObjRecs
  have whole := executeEntries_cons (executeEntry_buddyFree returned d.curObjRecs) executed
  have ran := runs _ _ whole (List.forall_mem_append.mpr ⟨inTree.sparesLog, spares.sparesLog⟩)
  obtain ⟨rfl, _⟩ := returns.unique ran
  have readable : ∀ entry ∈ freeEntries s m (posOf node) p slot, entry.Readable :=
    fun entry isEntry => (freeing.entries_fit sound.shape entry isEntry).readable
  have few := length_freeEntries s m (posOf node) p slot
  obtain ⟨stores, onMeta, replays⟩ := freeing.replays sound.shape removable s.shmem.buddyAlloc
    (m.read 2 (availableSlotsAddr p) + 1) ((m.apply logged).apply released)
  obtain rfl : rest = stores := (executed.unique (replays area clear d.curObjRecs).returns).1
  have reached : (logged ++ released).length ≤ k := by
    obtain ⟨front, last, rfl⟩ :=
      (List.eq_nil_or_concat' released).resolve_left (before.release_stores isTaken after)
    rw [← List.append_assoc] at treeDone ⊢
    rw [← List.append_assoc] at treeDone
    exact treeDone.length_le (inTree last (by simp))
  obtain ⟨n, rfl⟩ := Nat.exists_eq_add_of_le reached
  have taken : (logged ++ (released ++ rest)).take ((logged ++ released).length + n) =
      logged ++ (released ++ rest.take n) := by
    rw [← List.append_assoc, List.take_length_add_append, List.append_assoc]
  rw [taken]
  simp only [← List.append_assoc, Mem.apply_append]
  have bits := s.bits_eq
  have still := committed.congr readable few fun a low high =>
    Mem.apply_of_outside inTree.sparesLog low high _
  refine ⟨recovers_of_committed still readable few spares.sparesLog onMeta clear
    (fun early n' subset agree curObjRecs => ?_) (List.take_subset _ _), fun a inArea => ?_⟩
  · have sparesEarly : s.SparesTree early := fun t stored => spares t (subset stored)
    have again := (after.congr fun a above => sparesEarly.tree_same _ above).congr fun a above =>
      clear.agree_behind agree (by omega)
    have free := again.release_again freeing.isNode (level_erase_self isTaken _)
    exact ⟨[], curObjRecs, executeEntries_cons (executeEntry_buddyFree free curObjRecs)
      (replays area clear curObjRecs early n' subset agree), fun p isCur => .inr isCur,
      fun t none => absurd none List.not_mem_nil, rfl⟩
  · have before : a < s.base := by
      by_contra behind
      exact clear a inArea (.inr (.inr (by omega)))
    rw [Mem.apply_of_avoids
        (fun t stored => onMeta.avoids clear t (List.mem_of_mem_take stored)) inArea,
      Mem.apply_of_not_covers (fun t stored covers => by
        have := inTree t stored
        have := covers.1
        omega), offLog a (.inl before)]

end Operations

end Lupin.Alloc
