import Lupin.Alloc.Outcome
import Lupin.Alloc.Directory

/-!
# Calls of the clients

`atomic_allocate_memory`, `find_allocation`, `atomic_free_memory` and `recover_meta` on a machine,
and what each of them makes of a consistent state: a sound allocator that accounts for every
region a client holds. Each call leaves a consistent state, and a log that recovery executes
again without effect.
-/

namespace Lupin.Alloc

open Lupin.Memory Lupin.HeapIndex Lupin.LevelTree Lupin.Buddy Lupin.Log Lupin.LinkedList

/-! ## `recover_meta` -/

/-- The test of the loop that looks for the current page. -/
def hasFreeSlot (m : Mem) (page : Nat) : Bool := m.read 2 (availableSlotsAddr page) != 0

/-- `recover_meta` on the metadata it has come to, under `meta_lock`: the result and
`cur_obj_recs`. The loop over the headers prints them. -/
def recoverMetaAt (s : MetaShmem) (curObjRecs : Option Nat) : Shm (Int × Option Nat) := do
  let (ret, curObjRecs) ← recoverWithRedolog s.buddyAlloc s.redolog curObjRecs
  if ret ≠ 0 then pure (-ret, curObjRecs)
  else
    let m ← Shm.get
    match walkQueue m (fun _ => false) s.objHeaders, walkQueue m (hasFreeSlot m) s.objAllocs with
    | some _, some page => pure (0, page)
    | _, _ => Shm.stop

/-- `recover_meta`, without its first call, of `recover_cxlcg_meta`, which is about the area of the
cgroups. It computes the address of the metadata anew. The `struct buddy` there is taken to be that
of `s`, as it is if the address is that of `s`. -/
def recoverMeta (s : MetaShmem) (d : MetaDram) : Shm (Int × Option Nat) :=
  (Layout.recoverMetaAddress d.memLength).elim (pure (-efault, d.curObjRecs)) fun base =>
    recoverMetaAt { s with base } d.curObjRecs

theorem recoverMeta_eq {s : MetaShmem} {d : MetaDram}
    (located : Layout.recoverMetaAddress d.memLength = some s.base) :
    recoverMeta s d = recoverMetaAt s d.curObjRecs := by
  rw [recoverMeta, located, Option.elim_some]

/-! ## Requests -/

inductive Request where
  | allocate (length : Nat) (name : ProgId)
  | find (offset length : Nat) (name : ProgId)
  | free (region : Object)
  | recover
  /-- `do_os_failure_detection` has taken the lock over from a machine that died. -/
  | help

/-- The requests that execute the log. -/
def Request.heals : Request → Bool
  | .recover | .help => true
  | _ => false

inductive Reply where
  | allocated (result : Except Int Nat)
  | found (findAlloc : VcxlFindAlloc) (obj : Option Nat)
  | freed (result : Int)
  | recovered (result : Int)
  | helped (result : Nat)

/-- The argument of a free of the region. -/
def Object.desc (region : Object) : RegionDesc :=
  ⟨region.offset, region.length, region.name.toCString⟩

/-- A call on a machine: the reply and `cur_obj_recs`. -/
def serve (s : MetaShmem) (d : MetaDram) : Request → Shm (Reply × Option Nat)
  | .allocate length name => do
      let result ← atomicAllocateMemoryLockheld s d length name.toCString
      pure (.allocated result.1, result.2)
  | .find offset length name => do
      let result ← findAllocation s d ⟨offset, length, name.toCString⟩
      pure (.found result.findAlloc result.obj, result.curObjRecs)
  | .free region => do
      let result ← atomicFreeMemory s d region.desc
      pure (.freed result.1, result.2)
  | .recover => do
      let result ← recoverMeta s d
      pure (.recovered result.1, result.2)
  | .help => do
      let result ← recoverWithRedolog s.buddyAlloc s.redolog d.curObjRecs
      pure (.helped result.1, result.2)

section Find

variable {s : MetaShmem} {m : Mem} {desc : RegionDesc}

theorem findAllocation_existing {h : Nat}
    (found : (findObjHeader s desc.progId).Returns m [] (some h)) (d : MetaDram) :
    (findAllocation s d desc).Returns m []
      ⟨⟨{ desc with
          offset := m.read 8 (objOptrAddr h)
          length := m.read 8 (lengthAddr h) }, true⟩, none, d.curObjRecs⟩ := by
  rw [Shm.Returns, findAllocation, found.bind_eq]
  exact Shm.Returns.get_bind (.pure m _)

theorem findAllocation_empty (missing : (findObjHeader s desc.progId).Returns m [] none)
    (empty : desc.length = 0) (d : MetaDram) :
    (findAllocation s d desc).Returns m [] ⟨⟨desc, false⟩, none, d.curObjRecs⟩ := by
  rw [Shm.Returns, findAllocation, missing.bind_eq]
  dsimp only
  rw [if_neg (by omega)]
  exact Shm.Returns.pure m _

theorem findAllocation_missing (missing : (findObjHeader s desc.progId).Returns m [] none)
    (positive : 0 < desc.length) (d : MetaDram) :
    findAllocation s d desc m =
      (atomicAllocateMemoryLockheld s d desc.length desc.progId >>= fun result =>
        pure ⟨⟨{ desc with offset := offsetOf d result.1.toOption }, false⟩, result.1.toOption,
          result.2⟩) m := by
  rw [findAllocation, missing.bind_eq]
  dsimp only
  rw [if_pos positive]

/-- `find_allocation` of a name that it does not find, with what the allocation returns. -/
theorem findAllocation_allocates (missing : (findObjHeader s desc.progId).Returns m [] none)
    (positive : 0 < desc.length) {d : MetaDram} {stores : List Store} {result : Except Int Nat}
    {page : Option Nat}
    (allocates : (atomicAllocateMemoryLockheld s d desc.length desc.progId).Returns m stores
      (result, page)) :
    (findAllocation s d desc).Returns m stores
      ⟨⟨{ desc with offset := offsetOf d result.toOption }, false⟩, result.toOption, page⟩ :=
  (findAllocation_missing missing positive d).trans (Shm.bind_pure_apply allocates fun result =>
    FindResult.mk ⟨{ desc with offset := offsetOf d result.1.toOption }, false⟩ result.1.toOption
      result.2)

/-- `find_allocation` as a call. -/
theorem serve_find {d : MetaDram} {offset length : Nat} {name : ProgId} {stores : List Store}
    {result : Option FindResult}
    (ran : findAllocation s d ⟨offset, length, name.toCString⟩ m = (stores, result)) :
    serve s d (.find offset length name) m =
      (stores, result.map fun r => (.found r.findAlloc r.obj, r.curObjRecs)) := by
  rw [serve, Shm.bind_pure_apply ran fun r => (Reply.found r.findAlloc r.obj, r.curObjRecs)]

/-- `atomic_free_memory` as a call. -/
theorem serve_free {d : MetaDram} {region : Object} {stores : List Store}
    {result : Option (Int × Option Nat)}
    (ran : atomicFreeMemory s d region.desc m = (stores, result)) :
    serve s d (.free region) m = (stores, result.map fun r => (.freed r.1, r.2)) := by
  rw [serve, Shm.bind_pure_apply ran fun r => (Reply.freed r.1, r.2)]

theorem returns_reply {α : Type} {call : Shm (α × Option Nat)} {stores : List Store}
    {result : α × Option Nat} (returns : call.Returns m stores result) (reply : α → Reply) :
    (do
      let result ← call
      pure (reply result.1, result.2)).Returns m stores (reply result.1, result.2) :=
  Shm.bind_pure_apply returns fun r => (reply r.1, r.2)

/-- `recover_meta` as a call. -/
theorem serve_recover {d : MetaDram} {stores : List Store} {result : Int × Option Nat}
    (recovered : (recoverMeta s d).Returns m stores result) :
    (serve s d .recover).Returns m stores (.recovered result.1, result.2) := by
  rw [serve]
  exact returns_reply recovered Reply.recovered

theorem serve_help {d : MetaDram} {stores : List Store} {result : Nat × Option Nat}
    (recovered : (recoverWithRedolog s.buddyAlloc s.redolog d.curObjRecs).Returns m stores result) :
    (serve s d .help).Returns m stores (.helped result.1, result.2) := by
  rw [serve]
  exact returns_reply recovered Reply.helped

end Find

/-! ## The clients' side -/

def Object.block (object : Object) : Nat × Nat := (object.offset, object.length)

/-- The regions that clients hold, the directory of their names, and the blocks that are taken
though nobody holds them any more. -/
structure Ledger where
  held : List Object
  dir : Directory
  lost : List (Nat × Nat)

namespace Ledger

def empty : Ledger := ⟨[], .empty, []⟩

/-- A region is handed out and entered under its name. -/
def grant (ledger : Ledger) (region : Object) : Ledger :=
  ⟨region :: ledger.held, ledger.dir.insert region, ledger.lost⟩

/-- A region is given back. If its name is not in the directory, its block stays taken. -/
def release (ledger : Ledger) (region : Object) : Ledger :=
  ⟨ledger.held.erase region, ledger.dir.remove region.name,
    if (ledger.dir.lookup region.name).isSome then ledger.lost else region.block :: ledger.lost⟩

/-- A region is forgotten by its client. -/
def forsake (ledger : Ledger) (region : Object) : Ledger :=
  ⟨ledger.held.erase region, ledger.dir, region.block :: ledger.lost⟩

/-- After a call. -/
def settle (ledger : Ledger) : Request → Reply → Ledger
  | .allocate length name, .allocated (.ok obj) => ledger.grant ⟨obj, length, name⟩
  | .find _ length name, .found _ (some obj) => ledger.grant ⟨obj, length, name⟩
  | .free region, .freed 0 => ledger.release region
  | _, _ => ledger

/-- After a call that recovery will complete: nobody learns of a region that was allocated. -/
def interrupt (ledger : Ledger) : Request → Reply → Ledger
  | .allocate length name, .allocated (.ok obj) =>
      (ledger.grant ⟨obj, length, name⟩).forsake ⟨obj, length, name⟩
  | .find _ length name, .found _ (some obj) =>
      (ledger.grant ⟨obj, length, name⟩).forsake ⟨obj, length, name⟩
  | .free region, .freed 0 => ledger.release region
  | _, _ => ledger

/-- After a call that has not stored anything. -/
def abandon (ledger : Ledger) : Request → Ledger
  | .free region => ledger.forsake region
  | _ => ledger

end Ledger

/-- If the machine's page is full, the block that is found for another one is apart from that of
the request. -/
def PageApart (b : BuddyAlloc) (m : Mem) (curObjRecs : Option Nat) (length : Nat) : Prop :=
  ∀ p, curObjRecs = some p → m.read 2 (availableSlotsAddr p) = 0 →
    Apart (addressForPosition b (buddyMallocFindPos b m length)) (blockSize b length)
      (addressForPosition b (buddyMallocFindPos b m sizeofRecords)) (blockSize b sizeofRecords)

/-- Clients free what they hold, and a page that is taken with an object is apart from it.
`find_allocation` allocates only what it does not find. -/
def Careful (s : MetaShmem) (m : Mem) (curObjRecs : Option Nat) (held : List Object) :
    Request → Prop
  | .allocate length _ => PageApart s.buddyAlloc m curObjRecs length
  | .find _ length name =>
      walkQueue m (namedAt m name.toCString) s.objHeaders = some none → 0 < length →
        PageApart s.buddyAlloc m curObjRecs length
  | .free region => region ∈ held
  | .recover | .help => True

/-! ## Consistent states -/

/-- The bytes of the regions. -/
def heldArea (held : List Object) (a : Nat) : Prop :=
  ∃ object ∈ held, object.offset ≤ a ∧ a < object.offset + object.length

/-- The blocks of the record pages, but for the one that is no block. -/
def pageBlocks (pages : List Nat) : List (Nat × Nat) :=
  (pages.filter (· ≠ firstRecords)).map (·, sizeofRecords)

/-- All the blocks that are taken. -/
def Ledger.blocks (ledger : Ledger) (pages : List Nat) : List (Nat × Nat) :=
  ledger.held.map Object.block ++ (pageBlocks pages ++ ledger.lost)

/-- A sound allocator with the current page of each machine, the directory on its list, and the
blocks of the ledger and of the pages taken. Once there has been an allocation there is a log. -/
structure Consistent (s : Mapping) (m : Mem) (cur : UInt16 → Option Nat) (ledger : Ledger)
    (pages headers : List Nat) (live : List (Nat × Nat)) : Prop where
  sound : Sound s m pages headers live
  directory : DirectoryAt s m headers ledger.dir
  current : ∀ machine p, cur machine = some p → p ∈ pages
  blocks : (ledger.blocks pages).Perm live
  logged : ledger.held ≠ [] → s.Logged m

section Consistent

variable {s : Mapping} {m m' : Mem} {cur : UInt16 → Option Nat} {ledger : Ledger}
  {held held' : List Object} {pages headers : List Nat} {live : List (Nat × Nat)}

/-- A sound state depends on the metadata only. -/
theorem Sound.congr (sound : Sound s m pages headers live)
    (same : ∀ a, s.IsMeta pages a → m' a = m a) : Sound s m' pages headers live := by
  obtain ⟨virtualSlots, blocks, atEnd, invariant⟩ := sound.tree
  have bits := s.bits_eq
  refine ⟨sound.shape.congr_on
      ⟨fun p isPage a low high => same a (.inr (.inl ⟨p, isPage, low, high⟩)),
    fun a low _ => same a (.inr (.inr (by omega)))⟩, ⟨virtualSlots, blocks, atEnd, ?_⟩,
    sound.pagesLive⟩
  exact invariant.congr fun a above => same a (.inr (.inr (by omega)))

theorem Consistent.congr (consistent : Consistent s m cur ledger pages headers live)
    (same : ∀ a, s.IsMeta pages a → m' a = m a) : Consistent s m' cur ledger pages headers live :=
  ⟨consistent.sound.congr same, consistent.directory.congr (fun x listed a low high => same a (by
      obtain ⟨p, isPage, i, bound, rfl⟩ := consistent.sound.shape.inPage listed
      have := objHeader_bounds (p := p) bound
      exact .inr (.inl ⟨p, isPage, by omega, by unfold sizeofRecords; omega⟩)))
    (Mem.read_congr fun a low _ => same a (.inr (.inr ((Nat.le_add_right s.base 568).trans low)))),
    consistent.current, consistent.blocks, fun some =>
      (consistent.logged some).congr fun a behind => same a (.inr (.inr behind))⟩

/-- Live blocks are in the arena. -/
theorem Sound.block_bounds (sound : Sound s m pages headers live) {block : Nat × Nat}
    (isLive : block ∈ live) : 98304 ≤ block.1 ∧ block.2 ≤ blockSize s.arena.toBuddyAlloc block.2 ∧
      block.1 + blockSize s.arena.toBuddyAlloc block.2 ≤ s.base := by
  obtain ⟨_, _, atEnd, invariant⟩ := sound.tree
  obtain ⟨at_, _⟩ := invariant.live block isLive
  have main : s.arena.main = 98304 := s.main_eq
  exact ⟨main ▸ at_.aligned.1, (le_max_left _ _).trans at_.large,
    (invariant.inside atEnd isLive).trans s.arena_end⟩

/-- The blocks that are taken have no byte in common. -/
theorem Consistent.pairwise (consistent : Consistent s m cur ledger pages headers live) :
    (ledger.blocks pages).Pairwise fun x y =>
      Apart x.1 (blockSize s.arena.toBuddyAlloc x.2) y.1 (blockSize s.arena.toBuddyAlloc y.2) := by
  obtain ⟨_, _, _, invariant⟩ := consistent.sound.tree
  exact (consistent.blocks.pairwise_iff fun apart => Or.symm apart).mpr invariant.pairwise

theorem Consistent.isLive (consistent : Consistent s m cur ledger pages headers live)
    {object : Object} (isHeld : object ∈ ledger.held) : object.block ∈ live :=
  consistent.blocks.subset (List.mem_append_left _ (List.mem_map_of_mem isHeld))

theorem mem_pageBlocks {p : Nat} (isPage : p ∈ pages) (notFirst : p ≠ firstRecords) :
    (p, sizeofRecords) ∈ pageBlocks pages :=
  List.mem_map_of_mem (List.mem_filter.mpr ⟨isPage, by simpa using notFirst⟩)

/-- The block of a region and that of a page are apart. -/
theorem Consistent.page_apart (consistent : Consistent s m cur ledger pages headers live)
    {object : Object} (isHeld : object ∈ ledger.held) {p : Nat} (isPage : p ∈ pages)
    (notFirst : p ≠ firstRecords) :
    Apart object.offset (blockSize s.arena.toBuddyAlloc object.length) p
      (blockSize s.arena.toBuddyAlloc sizeofRecords) :=
  (List.pairwise_append.mp consistent.pairwise).2.2 _ (List.mem_map_of_mem isHeld) _
    (List.mem_append_left _ (mem_pageBlocks isPage notFirst))

/-- The block of a region is not that of a page. -/
theorem Consistent.not_page (consistent : Consistent s m cur ledger pages headers live)
    {object : Object} (isHeld : object ∈ ledger.held) {p : Nat} (isPage : p ∈ pages)
    (notFirst : p ≠ firstRecords) : (p, sizeofRecords) ≠ object.block := by
  intro same
  have isOffset : p = object.offset := congrArg Prod.fst same
  have isLength : sizeofRecords = object.length := congrArg Prod.snd same
  have apart := consistent.page_apart isHeld isPage notFirst
  obtain ⟨_, large, _⟩ := consistent.sound.block_bounds
    (consistent.sound.pagesLive p isPage notFirst)
  rw [← isOffset, ← isLength] at apart
  unfold Apart at apart
  unfold sizeofRecords at apart large
  dsimp only at large
  omega

/-- No region that is held has a byte of the metadata. -/
theorem Consistent.clear (consistent : Consistent s m cur ledger pages headers live) :
    s.Clear pages (heldArea ledger.held) := by
  rintro a ⟨object, isHeld, low, high⟩ isMeta
  obtain ⟨start, large, inside⟩ := consistent.sound.block_bounds (consistent.isLive isHeld)
  have first : firstRecords = 20480 := rfl
  unfold Object.block at start large inside
  dsimp only at start large inside
  rcases isMeta with below | ⟨p, isPage, above, below⟩ | behind
  · omega
  · unfold sizeofRecords at below
    by_cases isFirst : p = firstRecords
    · omega
    · have apart := consistent.page_apart isHeld isPage isFirst
      obtain ⟨_, pageLarge, _⟩ := consistent.sound.block_bounds
        (consistent.sound.pagesLive p isPage isFirst)
      unfold Apart at apart
      dsimp only [sizeofRecords] at apart pageLarge
      omega
  · omega

theorem heldArea_mono (subset : held' ⊆ held) {a : Nat} (inArea : heldArea held' a) :
    heldArea held a := by
  obtain ⟨object, isHeld, inside⟩ := inArea
  exact ⟨object, subset isHeld, inside⟩

/-- Regions may be forgotten. -/
theorem Consistent.forsake (consistent : Consistent s m cur ledger pages headers live)
    {region : Object} (isHeld : region ∈ ledger.held) :
    Consistent s m cur (ledger.forsake region) pages headers live := by
  refine ⟨consistent.sound, consistent.directory, consistent.current, ?_,
    fun _ => consistent.logged (List.ne_nil_of_mem isHeld)⟩
  refine List.Perm.trans ?_ consistent.blocks
  have taken := ((List.perm_cons_erase isHeld).map Object.block).append_right
    (pageBlocks pages ++ ledger.lost)
  refine List.Perm.trans ?_ taken.symm
  simp only [Ledger.blocks, Ledger.forsake, List.map_cons, List.cons_append, ← List.append_assoc]
  exact List.perm_middle

end Consistent

/-! ## What a call leaves -/

/-- A call that has made these stores leaves a consistent state. Had its machine died behind the
stores to the tree, recovery would lead to the same memory. No byte of a region changes
meanwhile. -/
def Leaves (s : Mapping) (m : Mem) (stores : List Store) (cur : UInt16 → Option Nat)
    (ledger : Ledger) : Prop :=
  ∃ pages headers live, Consistent s (m.apply stores) cur ledger pages headers live ∧
    ∀ kept, kept ⊆ ledger.held → ∀ k, s.TreeDone (stores.drop k) →
      Recovers s pages (heldArea kept) (m.apply (stores.take k)) (m.apply stores) ∧
        ∀ a, heldArea kept a → m.apply (stores.take k) a = m a

section Calls

variable {s : Mapping} {m : Mem} {cur : UInt16 → Option Nat} {ledger : Ledger}
  {pages headers : List Nat} {live : List (Nat × Nat)} {machine : UInt16} {d : MetaDram}
  {length : Nat} {name : ProgId} {stores : List Store}

/-- A call that stores nothing. -/
theorem Consistent.leaves_unchanged (settled : Recovers s pages (heldArea ledger.held) m m)
    {ledger' : Ledger} (consistent : Consistent s m cur ledger' pages headers live)
    (less : ledger'.held ⊆ ledger.held) : Leaves s m [] cur ledger' := by
  refine ⟨pages, headers, live, consistent, fun kept subset k _ => ?_⟩
  rw [List.take_nil]
  exact ⟨settled.shrink (fun a => heldArea_mono (List.Subset.trans subset less)) fun _ _ => rfl,
    fun _ _ => rfl⟩

theorem update_current {next : Option Nat} {pages' : List Nat}
    (current : ∀ machine p, cur machine = some p → p ∈ pages')
    (isPage : ∀ p, next = some p → p ∈ pages') (machine : UInt16) :
    ∀ other p, Function.update cur machine next other = some p → p ∈ pages' := by
  intro other p isCur
  by_cases here : other = machine
  · subst here
    rw [Function.update_self] at isCur
    exact isPage p isCur
  · rw [Function.update_of_ne here] at isCur
    exact current other p isCur

/-- An allocation adds its blocks to those that are accounted for. -/
theorem Consistent.newBlocks (consistent : Consistent s m cur ledger pages headers live) {p : Nat}
    (room : Room s m p length) (name : ProgId) :
    ((ledger.grant ⟨s.block m length, length, name⟩).blocks (newPages s m p pages)).Perm
      (newBlocks s m p length ++ live) := by
  have grown : ∀ pages', ((ledger.grant ⟨s.block m length, length, name⟩).blocks pages').Perm
      ((s.block m length, length) :: ledger.blocks pages') := fun _ => .refl _
  refine (grown _).trans ?_
  unfold newPages Alloc.newBlocks
  by_cases available : 0 < m.read 2 (availableSlotsAddr p)
  · rw [if_pos available, if_pos available]
    exact consistent.blocks.cons _
  · rw [if_neg available, if_neg available]
    obtain ⟨_, _, low, _⟩ := consistent.sound.found (room.page (by omega))
    have main : s.arena.main = 98304 := s.main_eq
    have notFirst : s.block m sizeofRecords ≠ firstRecords := by
      unfold firstRecords Layout.futexAddrQueueSize
      omega
    have split : pageBlocks (pages ++ [s.block m sizeofRecords]) =
        pageBlocks pages ++ [(s.block m sizeofRecords, sizeofRecords)] := by
      simp [pageBlocks, List.filter_append, notFirst]
    have taken : (ledger.blocks (pages ++ [s.block m sizeofRecords])).Perm
        ((s.block m sizeofRecords, sizeofRecords) :: ledger.blocks pages) := by
      rw [Ledger.blocks, split, List.append_assoc, List.singleton_append, ← List.append_assoc,
        Ledger.blocks, ← List.append_assoc]
      exact List.perm_middle
    exact ((taken.trans (consistent.blocks.cons _)).cons _).trans (.swap _ _ _)

/-- A machine of the system, as the operations see it. -/
structure Joined (s : Mapping) (cur : UInt16 → Option Nat) (machine : UInt16) (d : MetaDram) : Prop
    where
  memLength : d.memLength = s.memLength
  machineId : d.machineId = machine.toNat
  curObjRecs : d.curObjRecs = cur machine

/-- An allocation with room for its blocks. -/
theorem Consistent.allocated (consistent : Consistent s m cur ledger pages headers live)
    (on : Joined s cur machine d) {p : Nat} (isCur : d.curObjRecs = some p)
    (room : Room s m p length) (name : ProgId) :
    ∃ stores, (atomicAllocateMemoryLockheld s.shmem d length name.toCString).Returns m stores
        (.ok (s.block m length), some (newCur s m p)) ∧
      Placed s m (m.apply stores) pages (newPages s m p pages) headers (newHeader s m p)
        ⟨s.block m length, length, name⟩ d.machineId ∧
      Consistent s (m.apply stores) (Function.update cur machine (some (newCur s m p)))
        (ledger.grant ⟨s.block m length, length, name⟩) (newPages s m p pages)
        (appendBehind headers (m.read 8 (peTail s.shmem.objHeaders)) (newHeader s m p))
        (Alloc.newBlocks s m p length ++ live) := by
  have member : p ∈ pages := consistent.current machine p (on.curObjRecs ▸ isCur)
  have onMachine : OnMachine s d p := ⟨on.memLength, on.machineId ▸ machine.toNat_lt, isCur⟩
  obtain ⟨stores, returns, placed, after⟩ := consistent.sound.allocate onMachine member room name
  have kept : ∀ q ∈ pages, q ∈ newPages s m p pages := fun q isPage => by
    unfold newPages
    split
    · exact isPage
    · exact List.mem_append_left _ isPage
  refine ⟨stores, returns, placed, after, consistent.directory.place consistent.sound.shape placed,
    update_current (fun other q isCur => kept q (consistent.current other q isCur))
      (fun q isNew => Option.some.inj isNew ▸ mem_newPages s m member) machine,
    consistent.newBlocks room name,
    fun _ => consistent.sound.allocate_logged onMachine member room returns⟩

/-- An allocation that returns though there is a block has a page, and if the page is full a block
for another. -/
theorem Consistent.has_page (consistent : Consistent s m cur ledger pages headers live)
    (on : Joined s cur machine d) (hasBlock : s.HasBlock m length) {result : Except Int Nat}
    {next : Option Nat}
    (returns : (atomicAllocateMemoryLockheld s.shmem d length name.toCString).Returns m stores
      (result, next)) :
    ∃ p ∈ pages, OnMachine s d p ∧
      (m.read 2 (availableSlotsAddr p) = 0 → s.HasBlock m sizeofRecords) := by
  have sound := consistent.sound
  have stops : (atomicAllocateMemoryLockheld s.shmem d length name.toCString m).2 ≠ none := by
    rw [returns]
    simp
  cases isCur : d.curObjRecs with
  | none => exact absurd (sound.allocate_without_page on.memLength hasBlock isCur _) stops
  | some p =>
      have member : p ∈ pages := consistent.current machine p (on.curObjRecs ▸ isCur)
      have onMachine : OnMachine s d p := ⟨on.memLength, on.machineId ▸ machine.toNat_lt, isCur⟩
      refine ⟨p, member, onMachine, fun full => ?_⟩
      by_contra noBlock
      exact stops (sound.allocate_full onMachine member hasBlock full noBlock _)

theorem Consistent.allocate (consistent : Consistent s m cur ledger pages headers live)
    (settled : Recovers s pages (heldArea ledger.held) m m) (on : Joined s cur machine d)
    (apart : PageApart s.shmem.buddyAlloc m d.curObjRecs length) {result : Except Int Nat}
    {next : Option Nat}
    (returns : (atomicAllocateMemoryLockheld s.shmem d length name.toCString).Returns m stores
      (result, next)) :
    Leaves s m stores (Function.update cur machine next)
      (ledger.settle (.allocate length name) (.allocated result)) := by
  have sound := consistent.sound
  by_cases hasBlock : s.HasBlock m length
  swap
  · -- refused
    obtain ⟨rfl, same⟩ := returns.unique (allocate_refused hasBlock d name.toCString)
    obtain ⟨rfl, rfl⟩ := Prod.mk.inj same
    rw [on.curObjRecs, Function.update_eq_self]
    exact consistent.leaves_unchanged settled (List.Subset.refl _)
  obtain ⟨p, member, onMachine, page⟩ := consistent.has_page on hasBlock returns
  have isCur := onMachine.curObjRecs
  have room : Room s m p length := ⟨hasBlock, page, fun full => apart p isCur full⟩
  obtain ⟨_, completes, _, now⟩ := consistent.allocated on isCur room name
  obtain ⟨rfl, same⟩ := returns.unique completes
  obtain ⟨rfl, rfl⟩ := Prod.mk.inj same
  refine ⟨_, _, _, now, fun less subset k done => ?_⟩
  exact sound.allocate_recovers onMachine member room returns done fun a inArea =>
    now.clear a (heldArea_mono subset inArea)

/-- The header of the name can be taken off the list. -/
theorem Consistent.freed (consistent : Consistent s m cur ledger pages headers live) (d : MetaDram)
    {region : Object} (isHeld : region ∈ ledger.held) {h : Nat}
    (found : headers.find? (namedAt m region.name.toCString) = some h)
    (removable : headers = [h] ∨ headers.head? ≠ some h) :
    ∃ stores, (atomicFreeMemory s.shmem d region.desc).Returns m stores (0, d.curObjRecs) ∧
      Consistent s (m.apply stores) cur (ledger.release region) pages (headers.erase h)
        (live.erase region.block) ∧
      ∃ p ∈ pages, 0 < (m.apply stores).read 2 (availableSlotsAddr p) := by
  have sound := consistent.sound
  obtain ⟨stores, completes, freed, after⟩ := @Sound.free _ _ _ _ _ sound d region.desc h found
    removable (consistent.isLive isHeld) fun _ => consistent.not_page isHeld
  refine ⟨stores, completes, ⟨after, consistent.directory.free sound.shape found freed,
    consistent.current, ?_, fun _ => sound.free_logged d found removable (consistent.isLive isHeld)
      completes⟩, freed.slot⟩
  have isListed : (ledger.dir.lookup region.name).isSome = true := by
    rcases find_split consistent.directory.entries region.name with ⟨missing, _⟩ |
      ⟨_, _, _, _, _, _, _, split, _, _, _, others, here, _⟩
    · exact absurd (found.symm.trans missing) (by simp)
    · rw [Directory.lookup_some split others here]
      rfl
  have taken := ((List.perm_cons_erase isHeld).map Object.block).append_right
    (pageBlocks pages ++ ledger.lost)
  have less := (taken.symm.trans consistent.blocks).erase region.block
  rw [Ledger.release, if_pos isListed]
  rwa [List.map_cons, List.cons_append, List.erase_cons_head] at less

/-- No header has the name. -/
theorem Consistent.free_missing (consistent : Consistent s m cur ledger pages headers live)
    (d : MetaDram) {region : Object} (isHeld : region ∈ ledger.held)
    (missing : headers.find? (namedAt m region.name.toCString) = none) :
    (atomicFreeMemory s.shmem d region.desc).Returns m [] (0, d.curObjRecs) ∧
      Consistent s m cur (ledger.release region) pages headers live := by
  refine ⟨@Sound.free_missing _ _ _ _ _ consistent.sound d region.desc missing, ?_⟩
  obtain ⟨_, others⟩ : _ ∧ ∀ o ∈ ledger.dir.entries, o.name ≠ region.name :=
    (find_split consistent.directory.entries region.name).resolve_right fun isListed => by
      obtain ⟨_, h, _, _, _, _, _, _, _, _, _, _, _, isFound⟩ := isListed
      exact absurd (missing.symm.trans isFound) (by simp)
  have kept : ledger.release region = ledger.forsake region := by
    rw [Ledger.release, Ledger.forsake, Directory.remove_none others,
      Directory.lookup_none others, if_neg (by simp)]
  rw [kept]
  exact consistent.forsake isHeld

/-- A free of a region that is held. -/
theorem Consistent.free (consistent : Consistent s m cur ledger pages headers live)
    (settled : Recovers s pages (heldArea ledger.held) m m) (on : Joined s cur machine d)
    {region : Object} (isHeld : region ∈ ledger.held) {result : Int} {next : Option Nat}
    (returns : (atomicFreeMemory s.shmem d region.desc).Returns m stores (result, next)) :
    result = 0 ∧ Leaves s m stores (Function.update cur machine next) (ledger.release region) := by
  have sound := consistent.sound
  have isLive : (region.desc.offset, region.desc.length) ∈ live := consistent.isLive isHeld
  cases found : headers.find? (namedAt m region.desc.progId) with
  | none =>
      obtain ⟨unchanged, now⟩ := consistent.free_missing d isHeld found
      obtain ⟨rfl, same⟩ := returns.unique unchanged
      obtain ⟨rfl, rfl⟩ := Prod.mk.inj same
      rw [on.curObjRecs, Function.update_eq_self]
      exact ⟨rfl, now.leaves_unchanged settled List.erase_subset⟩
  | some h =>
      have removable : headers = [h] ∨ headers.head? ≠ some h := by
        by_contra neither
        rw [not_or, not_not] at neither
        obtain ⟨several, isHead⟩ := neither
        have named : namedAt m region.desc.progId h = true := List.find?_some found
        match headers, isHead, several with
        | [_], rfl, several => exact several rfl
        | _ :: right :: back, rfl, _ =>
            have stops := sound.free_first d named isLive
            rw [returns] at stops
            simp at stops
      obtain ⟨_, completes, now, _⟩ := consistent.freed d isHeld found removable
      obtain ⟨rfl, same⟩ := returns.unique completes
      obtain ⟨rfl, rfl⟩ := Prod.mk.inj same
      rw [on.curObjRecs, Function.update_eq_self]
      refine ⟨rfl, _, _, _, now, fun less subset k done => ?_⟩
      exact sound.free_recovers d found removable isLive returns done fun a inArea =>
        now.clear a (heldArea_mono subset inArea)

/-- A loop over the pages. -/
theorem Shape.pages_walkQueue_eq (shape : Shape s m pages headers) (test : Nat → Bool) :
    walkQueue m test s.shmem.objAllocs = some (pages.find? test) := by
  have high := s.base_high
  obtain ⟨prev, linked⟩ := shape.pageList.linked
  refine walkQueue_eq shape.pageList.first linked (fun p isPage => ?_)
    (shape.pagesAt.apart.imp fun apart same => ?_) fun p isPage => ?_
  · have := shape.pagesAt.bounds isPage
    omega
  · unfold PagesApart sizeofRecords at apart
    omega
  · have := shape.pagesAt.bounds isPage
    omega

/-- The loops of `recover_meta` on what `recover_with_redolog` leaves. -/
theorem Sound.recoverMeta_returns {curObjRecs next : Option Nat}
    (recovered : (recoverWithRedolog s.shmem.buddyAlloc s.shmem.redolog curObjRecs).Returns m stores
      (0, next)) (sound : Sound s (m.apply stores) pages headers live) :
    (recoverMetaAt s.shmem curObjRecs).Returns m stores
      (0, pages.find? (hasFreeSlot (m.apply stores))) := by
  have shape := sound.shape
  have headerWalk := shape.headerList.walkQueue_eq fun _ => false
  have pageWalk := shape.pages_walkQueue_eq (hasFreeSlot (m.apply stores))
  generalize pages.find? (hasFreeSlot (m.apply stores)) = page at *
  rw [← List.append_nil stores]
  refine recovered.bind (Shm.Returns.get_bind ?_)
  simp only [headerWalk, pageWalk]
  exact .pure _ _

/-- What recovery that completes makes of a consistent state, and what it is cut short at. -/
structure Healed (s : Mapping) (m m' : Mem) (stores : List Store) (cur : UInt16 → Option Nat)
    (ledger : Ledger) (pages headers : List Nat) (live : List (Nat × Nat)) : Prop where
  consistent : Consistent s (m.apply stores) cur ledger pages headers live
  settled : Recovers s pages (heldArea ledger.held) (m.apply stores) (m.apply stores)
  agree : Mem.AgreeOff (heldArea ledger.held) m' (m.apply stores)
  kept : ∀ k a, heldArea ledger.held a → m.apply (stores.take k) a = m a
  cut : ∀ k, s.TreeDone (stores.drop k) →
    Recovers s pages (heldArea ledger.held) (m.apply (stores.take k)) m'

/-- `recover_with_redolog` completes what recovery leads to. -/
theorem Consistent.redo {m' : Mem} (consistent : Consistent s m' cur ledger pages headers live)
    (recovers : Recovers s pages (heldArea ledger.held) m m') (curObjRecs : Option Nat) :
    ∃ stores next, (recoverWithRedolog s.shmem.buddyAlloc s.shmem.redolog curObjRecs).Returns m
        stores (0, next) ∧ (∀ p, next = some p → p ∈ pages ∨ curObjRecs = some p) ∧
      Healed s m m' stores cur ledger pages headers live := by
  obtain ⟨stores, ⟨ret, next⟩, recovered, ⟨isZero, isPage⟩, avoids, leads⟩ :=
    recovers.returns curObjRecs
  obtain rfl : ret = 0 := isZero
  refine ⟨stores, next, recovered, isPage, ?_, ?_, leads, fun k a inArea => ?_,
    fun k done => recovers.interrupted recovered done⟩
  · exact consistent.congr fun a isMeta => leads a fun inArea => consistent.clear a inArea isMeta
  · exact (recovers.settled fun t none => absurd none List.not_mem_nil).congr leads leads
  · exact Mem.apply_of_avoids (fun t stored => avoids t (List.mem_of_mem_take stored)) inArea m

/-- `recover_meta` does the same. The machine then has the first page with a free slot. -/
theorem Consistent.recover {m' : Mem} (consistent : Consistent s m' cur ledger pages headers live)
    (recovers : Recovers s pages (heldArea ledger.held) m m')
    (located : Layout.recoverMetaAddress d.memLength = some s.shmem.base) :
    ∃ stores, (recoverMeta s.shmem d).Returns m stores
        (0, pages.find? (hasFreeSlot (m.apply stores))) ∧
      Healed s m m' stores cur ledger pages headers live := by
  obtain ⟨stores, next, recovered, _, healed⟩ := consistent.redo recovers d.curObjRecs
  rw [recoverMeta_eq located]
  exact ⟨stores, healed.consistent.sound.recoverMeta_returns recovered, healed⟩

/-- A machine that comes back, and one that helps. -/
theorem Consistent.heal {m' : Mem} (consistent : Consistent s m' cur ledger pages headers live)
    (recovers : Recovers s pages (heldArea ledger.held) m m') (on : Joined s cur machine d)
    {request : Request}
    (located : request = .recover → Layout.recoverMetaAddress d.memLength = some s.shmem.base)
    (heals : request.heals = true) :
    ∃ stores reply page, (serve s.shmem d request).Returns m stores (reply, page) ∧
      (∀ p, page = some p → p ∈ pages) ∧ Healed s m m' stores cur ledger pages headers live := by
  cases request with
  | recover =>
      obtain ⟨stores, recovered, healed⟩ := consistent.recover recovers (located rfl)
      exact ⟨stores, _, _, serve_recover recovered, fun p found => List.mem_of_find?_eq_some found,
        healed⟩
  | help =>
      obtain ⟨stores, next, recovered, isPage, healed⟩ := consistent.redo recovers d.curObjRecs
      refine ⟨stores, _, _, serve_help recovered, fun p isNext => ?_, healed⟩
      exact (isPage p isNext).elim id fun isCur =>
        consistent.current machine p (on.curObjRecs ▸ isCur)
  | allocate | find | free => exact absurd heals Bool.false_ne_true

/-- The machine has this page afterwards. -/
theorem Consistent.onPage (consistent : Consistent s m cur ledger pages headers live)
    (machine : UInt16) {page : Option Nat} (isPage : ∀ p, page = some p → p ∈ pages) :
    Consistent s m (Function.update cur machine page) ledger pages headers live :=
  ⟨consistent.sound, consistent.directory, update_current consistent.current isPage machine,
    consistent.blocks, consistent.logged⟩

/-- A recovery from a consistent state changes nothing. -/
theorem Healed.unchanged (healed : Healed s m m stores cur ledger pages headers live) :
    m.apply stores = m := by
  funext a
  by_cases inArea : heldArea ledger.held a
  · have kept := healed.kept stores.length a inArea
    rwa [List.take_length] at kept
  · exact healed.agree a inArea

/-- A recovery from a consistent state, as a call. -/
theorem Healed.leaves (healed : Healed s m m stores cur ledger pages headers live)
    (machine : UInt16) {page : Option Nat} (isPage : ∀ p, page = some p → p ∈ pages) :
    Leaves s m stores (Function.update cur machine page) ledger := by
  refine ⟨pages, headers, live, healed.consistent.onPage machine isPage,
    fun less subset k done => ⟨?_, fun a inArea => healed.kept k a (heldArea_mono subset inArea)⟩⟩
  have whole := healed.kept stores.length
  rw [List.take_length] at whole
  refine Shm.Heals.shrink ((healed.cut k done).congr (.refl _ _) healed.agree)
    (fun a => heldArea_mono subset) fun a inArea => ?_
  rw [healed.kept k a inArea, whole a inArea]

theorem Ledger.settle_of_heals (ledger : Ledger) {request : Request} (heals : request.heals = true)
    (reply : Reply) : ledger.settle request reply = ledger ∧
      ledger.interrupt request reply = ledger ∧ ledger.abandon request = ledger := by
  cases request with
  | recover | help => exact ⟨rfl, rfl, rfl⟩
  | allocate | find | free => exact absurd heals Bool.false_ne_true

/-- `find_allocation`: a name that is there, or an allocation. -/
theorem Consistent.find (consistent : Consistent s m cur ledger pages headers live)
    (settled : Recovers s pages (heldArea ledger.held) m m) (on : Joined s cur machine d)
    {offset : Nat}
    (apart : walkQueue m (namedAt m name.toCString) s.shmem.objHeaders = some none → 0 < length →
      PageApart s.shmem.buddyAlloc m d.curObjRecs length) {result : FindResult}
    (returns :
      (findAllocation s.shmem d ⟨offset, length, name.toCString⟩).Returns m stores result) :
    Leaves s m stores (Function.update cur machine result.curObjRecs)
      (ledger.settle (.find offset length name) (.found result.findAlloc result.obj)) := by
  have searched := consistent.sound.search name.toCString
  have unchanged : ∀ findAlloc, Leaves s m [] (Function.update cur machine d.curObjRecs)
      (ledger.settle (.find offset length name) (.found findAlloc none)) := by
    intro findAlloc
    rw [on.curObjRecs, Function.update_eq_self]
    exact consistent.leaves_unchanged settled (List.Subset.refl _)
  cases found : headers.find? (namedAt m name.toCString) with
  | some h =>
      rw [found] at searched
      have known := @findAllocation_existing _ _ ⟨offset, length, name.toCString⟩ h searched d
      obtain ⟨rfl, rfl⟩ := returns.unique known
      exact unchanged _
  | none =>
      rw [found] at searched
      rcases Nat.eq_zero_or_pos length with empty | positive
      · have nothing := @findAllocation_empty _ _ ⟨offset, length, name.toCString⟩ searched empty d
        obtain ⟨rfl, rfl⟩ := returns.unique nothing
        exact unchanged _
      · have same :=
          @findAllocation_missing _ _ ⟨offset, length, name.toCString⟩ searched positive d
        rw [Shm.Returns, same] at returns
        obtain ⟨⟨result, next⟩, allocates, rfl⟩ := Shm.Returns.of_bind_pure returns
        have missing : walkQueue m (namedAt m name.toCString) s.shmem.objHeaders = some none := by
          rw [consistent.sound.shape.headerList.walkQueue_eq, found]
        have leaves := consistent.allocate settled on (apart missing positive) allocates
        cases result with
        | ok obj => exact leaves
        | error code => exact leaves

/-- Every careful call that returns. -/
theorem Consistent.serve (consistent : Consistent s m cur ledger pages headers live)
    (settled : Recovers s pages (heldArea ledger.held) m m) (on : Joined s cur machine d)
    {request : Request}
    (located : request = .recover → Layout.recoverMetaAddress d.memLength = some s.shmem.base)
    (careful : Careful s.shmem m d.curObjRecs ledger.held request) {reply : Reply}
    {next : Option Nat} (returns : (serve s.shmem d request).Returns m stores (reply, next)) :
    Leaves s m stores (Function.update cur machine next) (ledger.settle request reply) := by
  by_cases heals : request.heals = true
  · obtain ⟨_, _, _, returns', isPage, healed⟩ := consistent.heal settled on located heals
    obtain ⟨rfl, same⟩ := returns.unique returns'
    obtain ⟨rfl, rfl⟩ := Prod.mk.inj same
    rw [(ledger.settle_of_heals heals reply).1]
    exact healed.leaves machine isPage
  cases request with
  | allocate length name =>
      obtain ⟨⟨result, _⟩, allocates, same⟩ := Shm.Returns.of_bind_pure returns
      obtain ⟨rfl, rfl⟩ := Prod.mk.inj same
      exact consistent.allocate settled on careful allocates
  | find offset length name =>
      obtain ⟨result, finds, same⟩ := Shm.Returns.of_bind_pure returns
      obtain ⟨rfl, rfl⟩ := Prod.mk.inj same
      exact consistent.find settled on careful finds
  | free region =>
      obtain ⟨⟨result, _⟩, frees, same⟩ := Shm.Returns.of_bind_pure returns
      obtain ⟨rfl, rfl⟩ := Prod.mk.inj same
      obtain ⟨rfl, leaves⟩ := consistent.free settled on careful frees
      exact leaves
  | recover | help => exact absurd rfl heals

end Calls

end Lupin.Alloc
