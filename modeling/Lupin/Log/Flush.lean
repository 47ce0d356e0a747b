import Lupin.Lib.FlushTrace
import Lupin.Log.Recover

/-!
# What executing the log writes back

`execute_log` and the tree operations in the `CACHELINE_GRANULAR` build, with their calls of
`shmem_flush_cpu_cache`. Without these calls they are the functions of the other modules.

The range operations of the bitset return where their loop has ended, not where it began.
`write_to_internal_position` therefore writes back the line of the last byte of a field only,
and `executeLog_flushed_iff` states when that is enough.
-/

namespace Lupin.Flush

open Lupin.Memory Lupin.Buddy Lupin.HeapIndex Lupin.Log
open Lupin.LevelTree (combine)

/-! ## Lines -/

/-- `FLUSH_ALIGN`. -/
def flushAlign : Nat := 64

/-- The cache line of an offset into the mapping at this address. -/
def line (base a : Nat) : Nat := (base + a) / flushAlign

/-- The lines the loop of `shmem_flush_cpu_cache` goes through. -/
def flushedLines (base : Nat) (range : Range) : List Nat :=
  let start := base + range.addr
  (List.range ((start + range.len + (flushAlign - 1)) / flushAlign - start / flushAlign)).map
    (start / flushAlign + ·)

def Covers (base : Nat) (range : Range) (a : Nat) : Prop := line base a ∈ flushedLines base range

/-! ## The functions with their write-backs -/

/-- `struct bitset_bucket_range`. -/
structure BucketRange where
  first : Nat
  last : Nat

/-- What `bitset_clear_range` and `bitset_set_range` return. -/
def bucketRange (fromPos toPos : Nat) : BucketRange :=
  let fromBucket := fromPos / 8
  let toBucket := toPos / 8
  if fromBucket = toBucket then ⟨fromBucket, fromBucket⟩
  else
    -- the loop has counted `from_bucket` up
    let fromBucket := fromBucket + 1 + (toBucket - (fromBucket + 1))
    ⟨fromBucket, fromBucket⟩

/-- `write_to_internal_position`. -/
def writeToInternalPosition (bitset : Nat) (pos : InternalPosition) (value : Nat) :
    Pmem Unit := do
  let clearTo := pos.bitsetLocation + pos.localOffset - 1
  let setTo := pos.bitsetLocation + value - 1
  Pmem.lift (bitsetClearRange bitset pos.bitsetLocation clearTo)
  let clearRng := bucketRange pos.bitsetLocation clearTo
  let last ←
    if value ≠ 0 then do
      Pmem.lift (bitsetSetRange bitset pos.bitsetLocation setTo)
      let setRng := bucketRange pos.bitsetLocation setTo
      pure (if setRng.last > clearRng.last then setRng.last else clearRng.last)
    else pure clearRng.last
  Pmem.flush (bitset + clearRng.first) (last - clearRng.first + 1)

/-- The loop of `update_parent_chain`. -/
def updateParentChain (t : BuddyTree) :
    (rounds : Nat) → BuddyTreePos → InternalPosition → (sizeCurrent : Nat) → Pmem Unit
  | 0, _, _, _ => Pmem.lift Shm.stop
  | rounds + 1, pos, posInternal, sizeCurrent =>
      if pos.index = 1 then pure ()
      else do
        let sibling : InternalPosition :=
          { posInternal with
            bitsetLocation := posInternal.bitsetLocation + posInternal.localOffset -
              2 * posInternal.localOffset * (pos.index % 2) }
        let m ← Pmem.lift Shm.get
        let sizeSibling := readFromInternalPosition m t.bits sibling
        let parent := buddyTreeParent pos
        let parentInternal := buddyTreeInternalPositionTree t parent
        let sizeParent := readFromInternalPosition m t.bits parentInternal
        let targetParent :=
          if sizeCurrent ≠ 0 ∨ sizeSibling ≠ 0 then
            (if sizeCurrent ≤ sizeSibling then sizeCurrent else sizeSibling) + 1
          else 0
        if targetParent = sizeParent then pure ()
        else do
          writeToInternalPosition t.bits parentInternal targetParent
          updateParentChain t rounds parent parentInternal targetParent

/-- `buddy_tree_mark`. -/
def buddyTreeMark (t : BuddyTree) (pos : BuddyTreePos) : Pmem Unit := do
  let internal := buddyTreeInternalPositionTree t pos
  writeToInternalPosition t.bits internal internal.localOffset
  updateParentChain t pos.depth pos internal internal.localOffset

/-- `buddy_tree_release`. -/
def buddyTreeRelease (t : BuddyTree) (pos : BuddyTreePos) : Pmem Unit := do
  let internal := buddyTreeInternalPositionTree t pos
  let m ← Pmem.lift Shm.get
  if readFromInternalPosition m t.bits internal ≠ internal.localOffset then pure ()
  else do
    writeToInternalPosition t.bits internal 0
    updateParentChain t pos.depth pos internal 0

/-- `sizeof(slot_map)`. -/
def sizeofSlotMap : Nat := 46

/-- What `execute_log` passes to `shmem_flush_cpu_cache` behind the stores of an entry. The tree
operations of the buddy entries make these calls themselves. -/
def flushRanges : LogEntry → List Range
  | .buddyAlloc _ | .buddyFree _ => []
  | .val off _ => [⟨off, 8⟩]
  | .twoVal off1 _ off2 _ => [⟨off1, 8⟩, ⟨off2, 8⟩]
  | .str off progId => [⟨off, progId.length⟩]
  | .objHdrAlloc allocRecPtr _ _ slot _ _ _ =>
      [⟨objAllocBitset allocRecPtr, sizeofSlotMap⟩, ⟨objHeader allocRecPtr slot, sizeofObjHeader⟩]
  | .objHdrFree allocRecPtr _ _ => [⟨objAllocBitset allocRecPtr, sizeofSlotMap⟩]
  | .initObjAllocRecs newObjAllocEntry => [⟨newObjAllocEntry, sizeofRecords⟩]

/-- Several calls of `shmem_flush_cpu_cache`. -/
def flushAll : List Range → Pmem Unit
  | [] => pure ()
  | range :: rest => do
      Pmem.flush range.addr range.len
      flushAll rest

/-- One entry of `execute_log`. -/
def executeEntry (b : BuddyAlloc) (curObjRecs : Option Nat) : LogEntry → Pmem (Option Nat)
  | .buddyAlloc pos => do
      buddyTreeMark b.tree pos
      pure curObjRecs
  | .buddyFree pos => do
      buddyTreeRelease b.tree pos
      pure curObjRecs
  | entry => do
      let curObjRecs ← Pmem.lift (Log.executeEntry b curObjRecs entry)
      flushAll (flushRanges entry)
      pure curObjRecs

/-- The loop of `execute_log` over `count` entries from index `i` on. -/
def executeLogLoop (b : BuddyAlloc) (log : Nat) :
    (count i : Nat) → Option Nat → Pmem (Option Nat)
  | 0, _, curObjRecs => pure curObjRecs
  | count + 1, i, curObjRecs => do
      let m ← Pmem.lift Shm.get
      match readEntry m (entryAddr log i) with
      | some entry => do
          let curObjRecs ← executeEntry b curObjRecs entry
          executeLogLoop b log count (i + 1) curObjRecs
      | none => executeLogLoop b log count (i + 1) curObjRecs

/-- `execute_log`. -/
def executeLog (b : BuddyAlloc) (log length : Nat) (curObjRecs : Option Nat) :
    Pmem (Option Nat) :=
  executeLogLoop b log length 0 curObjRecs

/-! ## Without the write-backs -/

section Erase

open Pmem

theorem erase_writeToInternalPosition (bitset : Nat) (pos : InternalPosition) (value : Nat) :
    erase (writeToInternalPosition bitset pos value) =
      Buddy.writeToInternalPosition bitset pos value := by
  unfold writeToInternalPosition Buddy.writeToInternalPosition
  by_cases zero : value = 0
  · simp only [zero, ne_eq, not_true_eq_false, if_false, erase_bind, erase_lift, erase_flush,
      erase_pure, pure_bind]
  · simp only [zero, ne_eq, not_false_eq_true, if_true, erase_bind, erase_lift, erase_flush,
      erase_pure, pure_bind]
    refine bind_congr fun _ => ?_
    exact bind_pure _

theorem erase_ite {α : Type} {condition : Prop} [Decidable condition] (c d : Pmem α) :
    erase (if condition then c else d) = if condition then erase c else erase d := by
  split <;> rfl

theorem erase_updateParentChain (t : BuddyTree) (rounds : Nat) (pos : BuddyTreePos)
    (internal : InternalPosition) (sizeCurrent : Nat) :
    erase (updateParentChain t rounds pos internal sizeCurrent) =
      Buddy.updateParentChain t rounds pos internal sizeCurrent := by
  induction rounds generalizing pos internal sizeCurrent with
  | zero => exact erase_lift _
  | succ rounds inductionHypothesis =>
      simp only [updateParentChain, Buddy.updateParentChain, erase_ite, erase_bind, erase_pure,
        erase_lift, erase_writeToInternalPosition, inductionHypothesis]

theorem erase_buddyTreeMark (t : BuddyTree) (pos : BuddyTreePos) :
    erase (buddyTreeMark t pos) = Buddy.buddyTreeMark t pos := by
  simp only [buddyTreeMark, Buddy.buddyTreeMark, erase_bind, erase_writeToInternalPosition,
    erase_updateParentChain]

theorem erase_buddyTreeRelease (t : BuddyTree) (pos : BuddyTreePos) :
    erase (buddyTreeRelease t pos) = Buddy.buddyTreeRelease t pos := by
  simp only [buddyTreeRelease, Buddy.buddyTreeRelease, erase_ite, erase_bind, erase_lift,
    erase_pure, erase_writeToInternalPosition, erase_updateParentChain]

theorem erase_flushAll (ranges : List Range) : erase (flushAll ranges) = pure () := by
  induction ranges with
  | nil => rfl
  | cons range rest inductionHypothesis =>
      rw [flushAll, erase_bind, erase_flush, pure_bind, inductionHypothesis]

theorem erase_executeEntry (b : BuddyAlloc) (curObjRecs : Option Nat) (entry : LogEntry) :
    erase (executeEntry b curObjRecs entry) = Log.executeEntry b curObjRecs entry := by
  cases entry with
  | buddyAlloc pos =>
      simp only [executeEntry, Log.executeEntry, buddyMallocApply, erase_bind, erase_buddyTreeMark,
        erase_pure, bind_assoc, pure_bind]
  | buddyFree pos =>
      simp only [executeEntry, Log.executeEntry, buddyFreeApply, erase_bind,
        erase_buddyTreeRelease, erase_pure]
  | _ =>
      simp only [executeEntry, erase_bind, erase_lift, erase_flushAll, erase_pure, pure_bind,
        bind_pure]

/-- Executing the log with its write-backs makes the stores of executing it. -/
theorem erase_executeLog (b : BuddyAlloc) (log length : Nat) (curObjRecs : Option Nat) :
    erase (executeLog b log length curObjRecs) = Log.executeLog b log length curObjRecs := by
  unfold executeLog Log.executeLog
  generalize 0 = i
  induction length generalizing i curObjRecs with
  | zero => rfl
  | succ count inductionHypothesis =>
      rw [executeLogLoop, Log.executeLogLoop, erase_bind, erase_lift]
      refine bind_congr fun m => ?_
      cases readEntry m (entryAddr log i) with
      | none => exact inductionHypothesis _ _
      | some entry => simp only [erase_bind, erase_executeEntry, inductionHypothesis]

end Erase

/-! ## One field -/

section Lines

variable {base : Nat} {range : Range} {a : Nat}

theorem covers_iff : Covers base range a ↔ line base range.addr ≤ line base a ∧
    flushAlign * line base a < base + range.addr + range.len := by
  unfold Covers flushedLines line flushAlign
  rw [List.mem_map]
  constructor
  · rintro ⟨k, member, same⟩
    rw [List.mem_range] at member
    omega
  · rintro ⟨low, high⟩
    refine ⟨(base + a) / 64 - (base + range.addr) / 64, ?_, by omega⟩
    rw [List.mem_range]
    omega

/-- An address in a range is covered by it. -/
theorem covers_of_mem (low : range.addr ≤ a) (high : a < range.addr + range.len) :
    Covers base range a := by
  rw [covers_iff]
  unfold line flushAlign
  omega

theorem covers_byte_iff {b : Nat} : Covers base ⟨b, 1⟩ a ↔ line base a = line base b := by
  rw [covers_iff]
  unfold line flushAlign
  dsimp only
  omega

theorem covers_congr {b : Nat} (same : line base a = line base b) :
    Covers base range a ↔ Covers base range b := by
  rw [Covers, Covers, same]

end Lines

/-- The first byte of the field of a node. -/
def firstByte (t : BuddyTree) (i : Nat) : Nat := t.bits + fieldStart t.order i / 8

/-- The last byte of the field of a node. -/
def lastByte (t : BuddyTree) (i : Nat) : Nat :=
  t.bits + (fieldStart t.order i + height t.order i - 1) / 8

/-- What a write to the field of a node writes back. -/
def fieldFlush (t : BuddyTree) (i : Nat) : Range := ⟨lastByte t i, 1⟩

section Field

variable {base : Nat} {t : BuddyTree} {m : Mem} {i value old : Nat} {later : List Range}

theorem bucketRange_eq {fromPos toPos : Nat} (ordered : fromPos ≤ toPos) :
    bucketRange fromPos toPos = ⟨toPos / 8, toPos / 8⟩ := by
  unfold bucketRange
  dsimp only
  split
  · rename_i same
    rw [same]
  · have counted : fromPos / 8 + 1 + (toPos / 8 - (fromPos / 8 + 1)) = toPos / 8 := by omega
    simp only [counted]

/-- A write to the field of a node writes its last byte back. -/
theorem writeToInternalPosition_returns (node : Node t.order i)
    (bound : value ≤ height t.order i) :
    (writeToInternalPosition t.bits ⟨height t.order i, fieldStart t.order i⟩ value).Returns m
      ((fieldWrite t m i value).map .store ++ [.flush (fieldFlush t i)]) () := by
  have positive := node.height_pos
  have clearEnd := bucketRange_eq
    (by omega : fieldStart t.order i ≤ fieldStart t.order i + height t.order i - 1)
  have cleared : (bitsetClearRange t.bits (fieldStart t.order i)
      (fieldStart t.order i + height t.order i - 1)).Returns m (clearStores t m i) () :=
    bitsetClearRange_returns _ _ _ m
  have flushed : ∀ m', (Pmem.flush (t.bits + (fieldStart t.order i + height t.order i - 1) / 8)
      ((fieldStart t.order i + height t.order i - 1) / 8 -
        (fieldStart t.order i + height t.order i - 1) / 8 + 1)).Returns m'
      [.flush (fieldFlush t i)] () := by
    rw [Nat.sub_self]
    exact fun m' => .flush m' _ _
  unfold writeToInternalPosition
  simp only [clearEnd]
  by_cases zero : value = 0
  · have stores : (fieldWrite t m i value).map Event.store ++ [.flush (fieldFlush t i)] =
        (clearStores t m i).map .store ++ ([] ++ [.flush (fieldFlush t i)]) := by
      rw [fieldWrite, setStores, if_pos zero, List.append_nil, List.nil_append]
    simp only [zero, ne_eq, not_true_eq_false, if_false]
    rw [← zero, stores]
    exact .bind (.lift cleared) (.bind (.pure _ _) (flushed _))
  · have set : (bitsetSetRange t.bits (fieldStart t.order i)
        (fieldStart t.order i + value - 1)).Returns
        (m.apply (storesOf ((clearStores t m i).map .store)))
        (setStores t (m.apply (clearStores t m i)) i value) () := by
      rw [storesOf_map_store, setStores, if_neg zero]
      exact bitsetSetRange_returns _ _ _ _
    have setEnd := bucketRange_eq
      (by omega : fieldStart t.order i ≤ fieldStart t.order i + value - 1)
    have within : ¬ (fieldStart t.order i + value - 1) / 8 >
        (fieldStart t.order i + height t.order i - 1) / 8 := by omega
    have stores : (fieldWrite t m i value).map Event.store ++ [.flush (fieldFlush t i)] =
        (clearStores t m i).map .store ++
          ((setStores t (m.apply (clearStores t m i)) i value).map .store ++
            ([] ++ [.flush (fieldFlush t i)])) := by
      rw [fieldWrite, List.map_append, List.nil_append, List.append_assoc]
    simp only [zero, ne_eq, not_false_eq_true, if_true, setEnd, within, if_false]
    rw [stores]
    exact .bind (.lift cleared) (.bind (.lift set) (.bind (.pure _ _) (flushed _)))

/-- The stores of a range operation are to the bytes of the range. -/
theorem covers_maskStores {update : Byte → Byte → Byte} {bitset fromPos toPos a : Nat}
    (ordered : fromPos ≤ toPos) {s : Store}
    (member : s ∈ maskStores update bitset m (rangeMasks fromPos toPos)) (inside : s.Covers a) :
    bitset + fromPos / 8 ≤ a ∧ a ≤ bitset + toPos / 8 := by
  obtain ⟨⟨bucket, mask⟩, isMask, rfl⟩ := List.mem_map.mp member
  have buckets : fromPos / 8 ≤ bucket ∧ bucket ≤ toPos / 8 := by
    unfold rangeMasks at isMask
    split at isMask
    · simp only [List.mem_singleton, Prod.mk.injEq] at isMask
      omega
    · simp only [List.mem_cons, Prod.mk.injEq, List.mem_map, List.mem_range] at isMask
      rcases isMask with ⟨rfl, _⟩ | ⟨rfl, _⟩ | ⟨k, _, rfl, _⟩ <;> omega
  unfold Store.Covers at inside
  simp only [List.length_singleton] at inside
  omega

theorem covers_fieldWrite (node : Node t.order i) (bound : value ≤ height t.order i) {s : Store}
    (member : s ∈ fieldWrite t m i value) {a : Nat} (inside : s.Covers a) :
    firstByte t i ≤ a ∧ a ≤ lastByte t i := by
  have positive := node.height_pos
  unfold firstByte lastByte
  rcases List.mem_append.mp member with clear | set
  · exact covers_maskStores (by omega) clear inside
  · unfold setStores at set
    split at set
    · simp at set
    · rename_i nonzero
      have bytes := covers_maskStores (by omega) set inside
      omega

/-- The first store of a range operation is to the first byte, with a mask that has the first
bit. -/
theorem rangeMasks_head {fromPos toPos : Nat} (ordered : fromPos ≤ toPos) :
    ∃ mask rest, rangeMasks fromPos toPos = (fromPos / 8, mask) :: rest ∧
      mask.getLsbD (fromPos % 8) = true := by
  have inByte : fromPos % 8 < 8 := Nat.mod_lt _ (by decide)
  have toByte : toPos % 8 < 8 := Nat.mod_lt _ (by decide)
  unfold rangeMasks
  split
  · refine ⟨_, _, rfl, ?_⟩
    rw [getLsbD_charMask inByte toByte inByte, decide_eq_true_iff]
    omega
  · refine ⟨_, _, rfl, ?_⟩
    rw [getLsbD_charMask inByte (by decide) inByte, decide_eq_true_iff]
    omega

theorem store_singleton (m : Mem) (a : Nat) (byte : Byte) : m.store ⟨a, [byte]⟩ a = byte := by
  simp [Mem.store]

/-- The first store of a range operation that changes the first bit changes the first byte. -/
theorem maskStores_head {update : Byte → Byte → Byte} {new : Bool} (writes : Writes update new)
    {bitset fromPos toPos : Nat} (ordered : fromPos ≤ toPos)
    (differs : bit m bitset fromPos ≠ new) :
    ∃ s rest, maskStores update bitset m (rangeMasks fromPos toPos) = s :: rest ∧
      m.store s (bitset + fromPos / 8) ≠ m (bitset + fromPos / 8) := by
  obtain ⟨mask, rest, isHead, isSet⟩ := rangeMasks_head ordered
  refine ⟨⟨bitset + fromPos / 8, [update (m (bitset + fromPos / 8)) mask]⟩,
    maskStores update bitset m rest, by rw [isHead]; rfl, ?_⟩
  rw [store_singleton]
  intro same
  have inByte : fromPos % 8 < 8 := Nat.mod_lt _ (by decide)
  have bits := writes (m (bitset + fromPos / 8)) mask (fromPos % 8) inByte
  rw [same, isSet, if_pos rfl] at bits
  exact differs bits

/-- A write that shows changes the first byte of the field. -/
theorem exists_changed_firstByte (node : Node t.order i) (holds : Holds t m i old)
    (effective : old ≠ 0 ∨ value ≠ 0) :
    ∃ before s after, fieldWrite t m i value = before ++ s :: after ∧
      (m.apply before).store s (firstByte t i) ≠ m.apply before (firstByte t i) := by
  have positive := node.height_pos
  by_cases zero : old = 0
  · -- nothing to clear; the first store that sets bits changes the byte
    have nonzero : value ≠ 0 := effective.resolve_left (not_not.mpr zero)
    have clear : bit (m.apply (clearStores t m i)) t.bits (fieldStart t.order i) ≠ true := by
      rw [(holds_clearStores node m).first node]
      exact Bool.false_ne_true
    obtain ⟨s, rest, isHead, changed⟩ := maskStores_head writes_set
      (by omega : fieldStart t.order i ≤ fieldStart t.order i + value - 1) clear
    refine ⟨clearStores t m i, s, rest, ?_, changed⟩
    rw [fieldWrite, setStores, if_neg nonzero, isHead]
  · have set : bit m t.bits (fieldStart t.order i) ≠ false := by
      rw [holds.first node, decide_eq_true (by omega)]
      exact Bool.noConfusion
    obtain ⟨s, rest, isHead, changed⟩ := maskStores_head writes_clear
      (by omega : fieldStart t.order i ≤ fieldStart t.order i + height t.order i - 1) set
    refine ⟨[], s, rest ++ setStores t (m.apply (clearStores t m i)) i value, ?_, changed⟩
    rw [fieldWrite]
    nth_rewrite 1 [clearStores]
    rw [isHead]
    rfl

/-- The changes of a write to a field are written back exactly when its first byte is. -/
theorem flushedBy_fieldWrite (node : Node t.order i) (bound : value ≤ height t.order i)
    (holds : Holds t m i old) (effective : old ≠ 0 ∨ value ≠ 0) :
    FlushedBy (Covers base) later m
        ((fieldWrite t m i value).map .store ++ [.flush (fieldFlush t i)]) ↔
      line base (firstByte t i) = line base (lastByte t i) ∨
        ∃ range ∈ later, Covers base range (firstByte t i) := by
  have width : height t.order i ≤ 31 := by
    have := t.order_le
    have := node.size_pos
    unfold height
    omega
  have ordered : firstByte t i ≤ lastByte t i ∧ lastByte t i ≤ firstByte t i + 4 := by
    have := node.height_pos
    unfold firstByte lastByte
    omega
  rw [flushedBy_append]
  constructor
  · rintro ⟨flushed, _⟩
    obtain ⟨before, s, after, split, changed⟩ := exists_changed_firstByte node holds effective
    rw [split, List.map_append, List.map_cons, flushedBy_append, FlushedBy, storesOf_map_store]
      at flushed
    obtain ⟨range, member, covers⟩ := flushed.2.1 _ changed
    rw [flushesOf_map_store, List.nil_append] at member
    rcases List.mem_cons.mp member with rfl | isLater
    · exact .inl (covers_byte_iff.mp covers)
    · exact .inr ⟨range, isLater, covers⟩
  · intro covered
    refine ⟨flushedBy_stores fun s member a inside => ?_, flushedBy_flushes [fieldFlush t i]⟩
    obtain ⟨low, high⟩ := covers_fieldWrite node bound member inside
    by_cases here : line base a = line base (lastByte t i)
    · exact ⟨fieldFlush t i, List.mem_cons_self, covers_byte_iff.mpr here⟩
    · have first : line base a = line base (firstByte t i) := by
        unfold line flushAlign at here ⊢
        omega
      rcases covered with same | ⟨range, isLater, covers⟩
      · exact absurd (first.trans same) here
      · exact ⟨range, List.mem_cons_of_mem _ isLater, (covers_congr first).mpr covers⟩

end Field

/-! ## The writes of a log -/

/-- The fields of the tree hold these statuses. -/
structure Fields (t : BuddyTree) (m : Mem) (value : Nat → Nat) : Prop where
  holds : ∀ i, Node t.order i → Holds t m i (value i)
  bounded : ∀ i, Node t.order i → value i ≤ height t.order i

/-- The nodes above `c` whose statuses change when that of `c` has become `current`, with what
they change to, from below. -/
def climb : (value : Nat → Nat) → (rounds c current : Nat) → List (Nat × Nat)
  | _, 0, _, _ => []
  | value, rounds + 1, c, current =>
      if c = 1 then []
      else
        let target := combine current (value (sibling c))
        if target = value (c / 2) then []
        else (c / 2, target) :: climb (Function.update value (c / 2) target) rounds (c / 2) target

/-- The nodes whose fields an entry writes, with their new statuses. -/
def treeWrites (order : Nat) (value : Nat → Nat) : LogEntry → List (Nat × Nat)
  | .buddyAlloc pos =>
      let full := height order pos.index
      (pos.index, full) ::
        climb (Function.update value pos.index full) pos.index.size pos.index full
  | .buddyFree pos =>
      if value pos.index ≠ height order pos.index then []
      else (pos.index, 0) :: climb (Function.update value pos.index 0) pos.index.size pos.index 0
  | _ => []

/-- The statuses behind these writes. -/
def assign (value : Nat → Nat) (writes : List (Nat × Nat)) : Nat → Nat :=
  writes.foldl (fun value write => Function.update value write.1 write.2) value

/-- What these writes write back. -/
def writesFlush (t : BuddyTree) (writes : List (Nat × Nat)) : List Range :=
  writes.map fun write => fieldFlush t write.1

/-- What executing these entries writes back, from a tree with these statuses. -/
def logFlush (t : BuddyTree) : (Nat → Nat) → List LogEntry → List Range
  | _, [] => []
  | value, entry :: rest =>
      let writes := treeWrites t.order value entry
      writesFlush t writes ++ flushRanges entry ++ logFlush t (assign value writes) rest

/-- Every field that is written is in one line, or the line of its first byte is written back
with a field that is written later, or by `later`. -/
def WritesCovered (base : Nat) (t : BuddyTree) (later : List Range) : List (Nat × Nat) → Prop
  | [] => True
  | (i, _) :: rest =>
      (line base (firstByte t i) = line base (lastByte t i) ∨
        ∃ range ∈ writesFlush t rest ++ later, Covers base range (firstByte t i)) ∧
        WritesCovered base t later rest

/-- The same for the fields that all entries write. -/
def LogCovered (base : Nat) (t : BuddyTree) : (Nat → Nat) → List LogEntry → Prop
  | _, [] => True
  | value, entry :: rest =>
      let writes := treeWrites t.order value entry
      WritesCovered base t (logFlush t (assign value writes) rest) writes ∧
        LogCovered base t (assign value writes) rest

instance (base : Nat) (range : Range) (a : Nat) : Decidable (Covers base range a) :=
  inferInstanceAs (Decidable (_ ∈ _))

instance decidableWritesCovered (base : Nat) (t : BuddyTree) (later : List Range) :
    (writes : List (Nat × Nat)) → Decidable (WritesCovered base t later writes)
  | [] => inferInstanceAs (Decidable True)
  | (_, _) :: rest =>
      have := decidableWritesCovered base t later rest
      inferInstanceAs (Decidable ((_ ∨ _) ∧ _))

instance decidableLogCovered (base : Nat) (t : BuddyTree) :
    (value : Nat → Nat) → (entries : List LogEntry) → Decidable (LogCovered base t value entries)
  | _, [] => inferInstanceAs (Decidable True)
  | value, entry :: rest =>
      have := decidableLogCovered base t (assign value (treeWrites t.order value entry)) rest
      inferInstanceAs (Decidable (_ ∧ _))

section Walk

variable {base : Nat} {t : BuddyTree} {m : Mem} {value : Nat → Nat} {i : Nat}

/-- A computation from `m` that makes these writes to the fields. -/
structure Performs (base : Nat) (t : BuddyTree) (c : Pmem Unit) (m : Mem) (value : Nat → Nat)
    (writes : List (Nat × Nat)) (events : List Event) : Prop where
  returns : c.Returns m events ()
  flushes : flushesOf events = writesFlush t writes
  flushed : ∀ later, FlushedBy (Covers base) later m events ↔ WritesCovered base t later writes
  fields : Fields t (m.apply (storesOf events)) (assign value writes)
  above : ∀ s ∈ storesOf events, t.bits ≤ s.addr

theorem Performs.nil (fields : Fields t m value) : Performs base t (pure ()) m value [] [] :=
  ⟨.pure _ _, rfl, fun _ => Iff.rfl, fields, fun _ member => absurd member List.not_mem_nil⟩

theorem Fields.write (fields : Fields t m value) (node : Node t.order i) {new : Nat}
    (bound : new ≤ height t.order i) :
    Fields t (m.apply (fieldWrite t m i new)) (Function.update value i new) := by
  have only := onlyField_fieldWrite node bound m
  constructor
  · intro j inTree
    by_cases same : j = i
    · rw [same, Function.update_self]
      exact holds_fieldWrite node m new
    · rw [Function.update_of_ne same, only.holds_iff node inTree same]
      exact fields.holds j inTree
  · intro j inTree
    by_cases same : j = i
    · rw [same, Function.update_self]
      exact bound
    · rw [Function.update_of_ne same]
      exact fields.bounded j inTree

/-- A write to a field and what comes behind it. -/
theorem Performs.cons (fields : Fields t m value) (node : Node t.order i) {new : Nat}
    (bound : new ≤ height t.order i) (effective : value i ≠ 0 ∨ new ≠ 0) {c : Pmem Unit}
    {writes : List (Nat × Nat)} {events : List Event}
    (rest : Performs base t c (m.apply (fieldWrite t m i new)) (Function.update value i new) writes
      events) :
    Performs base t
      (do
        writeToInternalPosition t.bits ⟨height t.order i, fieldStart t.order i⟩ new
        c)
      m value ((i, new) :: writes)
      ((fieldWrite t m i new).map .store ++ [.flush (fieldFlush t i)] ++ events) := by
  have stores : storesOf ((fieldWrite t m i new).map .store ++ [.flush (fieldFlush t i)]) =
      fieldWrite t m i new := by
    rw [storesOf_append, storesOf_map_store]
    exact List.append_nil _
  have flushes : flushesOf ((fieldWrite t m i new).map .store ++ [.flush (fieldFlush t i)]) =
      [fieldFlush t i] := by
    rw [flushesOf_append, flushesOf_map_store]
    rfl
  refine ⟨.bind (writeToInternalPosition_returns node bound) ?_, ?_, fun later => ?_, ?_, ?_⟩
  · rw [stores]
    exact rest.returns
  · rw [flushesOf_append, flushes, rest.flushes]
    rfl
  · rw [flushedBy_append, stores, flushedBy_fieldWrite node bound (fields.holds i node) effective,
      rest.flushes, rest.flushed, WritesCovered]
  · rw [storesOf_append, stores, Mem.apply_append]
    exact rest.fields
  · rw [storesOf_append, stores, List.forall_mem_append]
    have emits :=
      writeToInternalPosition_emits t.bits ⟨height t.order i, fieldStart t.order i⟩ new m
    rw [(Buddy.writeToInternalPosition_returns t m i new).stores_eq] at emits
    exact ⟨emits, rest.above⟩

/-- One round of the walk, with its write-backs. -/
theorem updateParentChain_round (rounds current : Nat) {c : Nat} (node : Node t.order c)
    (notRoot : c ≠ 1) (fields : Fields t m value) :
    updateParentChain t (rounds + 1) (posOf c) ⟨height t.order c, fieldStart t.order c⟩ current m =
      (if combine current (value (sibling c)) = value (c / 2) then pure ()
       else do
         writeToInternalPosition t.bits ⟨height t.order (c / 2), fieldStart t.order (c / 2)⟩
           (combine current (value (sibling c)))
         updateParentChain t rounds (posOf (c / 2))
           ⟨height t.order (c / 2), fieldStart t.order (c / 2)⟩
           (combine current (value (sibling c))) : Pmem Unit) m := by
  obtain ⟨siblingNode, sameHeight⟩ := node.sibling_node notRoot
  have parent := node.parent notRoot
  have read := (fields.holds _ siblingNode).read_eq siblingNode (fields.bounded _ siblingNode)
  have readParent := (fields.holds _ parent).read_eq parent (fields.bounded _ parent)
  rw [sameHeight] at read
  have target : (if current ≠ 0 ∨ value (sibling c) ≠ 0 then
      (if current ≤ value (sibling c) then current else value (sibling c)) + 1 else 0) =
        combine current (value (sibling c)) := by
    unfold combine
    split_ifs <;> omega
  have index : (posOf c).index = c := rfl
  rw [updateParentChain, if_neg (by rw [index]; exact notRoot), Pmem.lift_get_bind]
  simp only [index, sibling_field node notRoot, read, readParent, target,
    posOf_parent (by have := node.1; omega : 1 < c), buddyTreeInternalPositionTree_posOf parent]

/-- The walk writes the nodes above whose statuses change. -/
theorem performs_climb (base : Nat) {rounds c current : Nat} (node : Node t.order c)
    (enough : c.size ≤ rounds) (small : current ≤ height t.order c) (fields : Fields t m value) :
    ∃ events, Performs base t
      (updateParentChain t rounds (posOf c) ⟨height t.order c, fieldStart t.order c⟩ current) m
      value (climb value rounds c current) events := by
  induction rounds generalizing c m value current with
  | zero =>
      have := node.size_pos
      omega
  | succ rounds inductionHypothesis =>
      by_cases root : c = 1
      · refine ⟨[], ?_⟩
        rw [updateParentChain, if_pos (show (posOf c).index = 1 from root), climb, if_pos root]
        exact .nil fields
      obtain ⟨siblingNode, sameHeight⟩ := node.sibling_node root
      have parent := node.parent root
      have round := updateParentChain_round rounds current node root fields
      rw [climb, if_neg root]
      dsimp only
      by_cases done : combine current (value (sibling c)) = value (c / 2)
      · rw [if_pos done] at round ⊢
        exact ⟨[], { Performs.nil fields with returns := round }⟩
      · rw [if_neg done] at round ⊢
        have bound : combine current (value (sibling c)) ≤ height t.order (c / 2) := by
          rw [node.height_parent root]
          refine LevelTree.combine_le small ?_
          rw [← sameHeight]
          exact fields.bounded _ siblingNode
        have effective : value (c / 2) ≠ 0 ∨ combine current (value (sibling c)) ≠ 0 := by omega
        obtain ⟨events, rest⟩ := inductionHypothesis parent
          (by have := size_parent (i := c) (by have := node.1; omega); omega) bound
          (fields.write parent bound)
        have both := Performs.cons fields parent bound effective rest
        exact ⟨_, { both with returns := round.trans both.returns }⟩

theorem performs_buddyTreeMark (base : Nat) (node : Node t.order i) (fields : Fields t m value) :
    ∃ events, Performs base t (buddyTreeMark t (posOf i)) m value
      (treeWrites t.order value (.buddyAlloc (posOf i))) events := by
  have positive := node.height_pos
  have written := fields.write node (Nat.le_refl (height t.order i))
  obtain ⟨events, rest⟩ := performs_climb base node (Nat.le_refl _) (Nat.le_refl _) written
  rw [buddyTreeMark, buddyTreeInternalPositionTree_posOf node]
  exact ⟨_, Performs.cons fields node (Nat.le_refl _) (.inr (by omega)) rest⟩

theorem performs_buddyTreeRelease (base : Nat) (node : Node t.order i) (fields : Fields t m value) :
    ∃ events, Performs base t (buddyTreeRelease t (posOf i)) m value
      (treeWrites t.order value (.buddyFree (posOf i))) events := by
  have positive := node.height_pos
  have read := (fields.holds _ node).read_eq node (fields.bounded _ node)
  have sequenced : buddyTreeRelease t (posOf i) m =
      (if value i ≠ height t.order i then pure ()
       else do
         writeToInternalPosition t.bits ⟨height t.order i, fieldStart t.order i⟩ 0
         updateParentChain t i.size (posOf i) ⟨height t.order i, fieldStart t.order i⟩ 0 :
        Pmem Unit) m := by
    rw [buddyTreeRelease, Pmem.lift_get_bind]
    simp only [buddyTreeInternalPositionTree_posOf node, read]
    rfl
  have index : (posOf i).index = i := rfl
  unfold treeWrites
  simp only [index]
  by_cases full : value i = height t.order i
  · have written := fields.write node (Nat.zero_le (height t.order i))
    obtain ⟨events, rest⟩ := performs_climb base node (Nat.le_refl _) (Nat.zero_le _)
      written
    rw [if_neg (not_not.mpr full)] at sequenced ⊢
    have both := Performs.cons fields node (Nat.zero_le _) (.inl (by omega)) rest
    exact ⟨_, { both with returns := sequenced.trans both.returns }⟩
  · rw [if_pos full] at sequenced ⊢
    exact ⟨[], { Performs.nil fields with returns := sequenced }⟩

end Walk

/-! ## A log -/

/-- An entry as an allocation or a free records it: positions are nodes of the tree, pointers are
not null, and slots are in the page. -/
def WellBuilt (t : BuddyTree) : LogEntry → Prop
  | .buddyAlloc pos | .buddyFree pos => ∃ i, Node t.order i ∧ pos = posOf i
  | .twoVal off1 _ off2 _ => off1 ≠ 0 ∧ off2 ≠ 0
  | .objHdrAlloc allocRecPtr _ _ slot _ progId _ =>
      allocRecPtr ≠ 0 ∧ slot < numObjSlots ∧ progId.length ≤ progIdSize
  | .objHdrFree allocRecPtr slot _ => allocRecPtr ≠ 0 ∧ slot < numObjSlots
  | .initObjAllocRecs newObjAllocEntry => newObjAllocEntry ≠ 0
  | .val _ _ | .str _ _ => True

/-- What an entry other than those of the tree writes is below the tree, and not in the log. -/
def Elsewhere (t : BuddyTree) (low high : Nat) (entry : LogEntry) : Prop :=
  ∀ range ∈ flushRanges entry, range.addr + range.len ≤ t.bits ∧
    (range.addr + range.len ≤ low ∨ high ≤ range.addr)

section Entries

variable {base : Nat} {b : BuddyAlloc} {m : Mem} {value : Nat → Nat} {curObjRecs : Option Nat}
  {low high : Nat}

/-- An entry executed from `m`, with the log at these addresses. -/
structure Executes (base : Nat) (b : BuddyAlloc) (curObjRecs : Option Nat) (low high : Nat)
    (m : Mem) (value : Nat → Nat) (entry : LogEntry) (events : List Event)
    (cur : Option Nat) : Prop where
  returns : (executeEntry b curObjRecs entry).Returns m events cur
  flushes : flushesOf events =
    writesFlush b.tree (treeWrites b.tree.order value entry) ++ flushRanges entry
  flushed : ∀ later, FlushedBy (Covers base) later m events ↔
    WritesCovered base b.tree later (treeWrites b.tree.order value entry)
  fields : Fields b.tree (m.apply (storesOf events))
    (assign value (treeWrites b.tree.order value entry))
  outside : ∀ s ∈ storesOf events, s.Outside low high

theorem flushAll_returns (m : Mem) (ranges : List Range) :
    (flushAll ranges).Returns m (ranges.map .flush) () := by
  induction ranges with
  | nil => exact .pure _ _
  | cons range rest inductionHypothesis => exact .bind (.flush _ _ _) inductionHypothesis

/-- The stores of an entry other than those of the tree are in what it writes back. -/
structure Plain (b : BuddyAlloc) (curObjRecs : Option Nat) (m : Mem) (entry : LogEntry)
    (stores : List Store) (cur : Option Nat) : Prop where
  returns : (Log.executeEntry b curObjRecs entry).Returns m stores cur
  within : ∀ s ∈ stores, ∃ range ∈ flushRanges entry,
    s.Within range.addr (range.addr + range.len)

/-- An entry whose stores come first and are then written back. -/
theorem Plain.executes {entry : LogEntry} {stores : List Store} {cur : Option Nat}
    (plain : Plain b curObjRecs m entry stores cur) (fields : Fields b.tree m value)
    (elsewhere : Elsewhere b.tree low high entry)
    (isPlain : executeEntry b curObjRecs entry = (do
      let curObjRecs ← Pmem.lift (Log.executeEntry b curObjRecs entry)
      flushAll (flushRanges entry)
      pure curObjRecs))
    (noWrites : treeWrites b.tree.order value entry = []) :
    Executes base b curObjRecs low high m value entry
      (stores.map .store ++ ((flushRanges entry).map .flush ++ [])) cur := by
  have below : ∀ s ∈ stores, s.addr + s.bytes.length ≤ b.tree.bits ∧ s.Outside low high := by
    intro s member
    obtain ⟨range, isRange, within⟩ := plain.within s member
    obtain ⟨beforeTree, apart⟩ := elsewhere range isRange
    exact ⟨within.2.trans beforeTree, apart.imp within.2.trans fun behind => behind.trans within.1⟩
  have stored : storesOf (stores.map .store ++ ((flushRanges entry).map .flush ++ [])) =
      stores := by
    rw [List.append_nil, storesOf_append, storesOf_map_store, storesOf_map_flush, List.append_nil]
  refine ⟨?_, ?_, fun later => ?_, ?_, ?_⟩
  · rw [isPlain]
    exact .bind (.lift plain.returns) (.bind (flushAll_returns _ _) (.pure _ _))
  · rw [noWrites, List.append_nil, flushesOf_append, flushesOf_map_store, flushesOf_map_flush]
    rfl
  · rw [noWrites, List.append_nil, flushedBy_append, flushesOf_map_flush]
    refine ⟨fun _ => trivial, fun _ => ⟨flushedBy_stores fun s member a inside => ?_,
      flushedBy_flushes _⟩⟩
    obtain ⟨range, isRange, within⟩ := plain.within s member
    exact ⟨range, List.mem_append_left _ isRange,
      covers_of_mem (within.1.trans inside.1) (lt_of_lt_of_le inside.2 within.2)⟩
  · rw [stored, noWrites]
    refine ⟨fun i node j inside => ?_, fields.bounded⟩
    have same : m.apply stores (b.tree.bits + (fieldStart b.tree.order i + j) / 8) =
        m (b.tree.bits + (fieldStart b.tree.order i + j) / 8) := by
      refine Mem.apply_of_not_covers (fun s member covers => ?_) m
      have before := (below s member).1
      have := covers.2
      omega
    rw [bit, same]
    exact fields.holds i node j inside
  · rw [stored]
    exact fun s member => (below s member).2

/-- Every well-built entry. -/
theorem executes_entry (base : Nat) (curObjRecs : Option Nat) {entry : LogEntry}
    (built : WellBuilt b.tree entry)
    (elsewhere : Elsewhere b.tree low high entry)
    (beforeTree : high ≤ b.tree.bits) (fields : Fields b.tree m value) :
    ∃ events cur, Executes base b curObjRecs low high m value entry events cur := by
  cases entry with
  | buddyAlloc pos =>
      obtain ⟨i, node, rfl⟩ := built
      obtain ⟨events, performs⟩ := performs_buddyTreeMark base node fields
      refine ⟨events ++ [], curObjRecs, .bind performs.returns (.pure _ _), ?_, ?_, ?_, ?_⟩
      · rw [List.append_nil, performs.flushes]
        exact (List.append_nil _).symm
      · rw [List.append_nil]
        exact performs.flushed
      · rw [List.append_nil]
        exact performs.fields
      · rw [List.append_nil]
        exact fun s member => .inr (beforeTree.trans (performs.above s member))
  | buddyFree pos =>
      obtain ⟨i, node, rfl⟩ := built
      obtain ⟨events, performs⟩ := performs_buddyTreeRelease base node fields
      refine ⟨events ++ [], curObjRecs, .bind performs.returns (.pure _ _), ?_, ?_, ?_, ?_⟩
      · rw [List.append_nil, performs.flushes]
        exact (List.append_nil _).symm
      · rw [List.append_nil]
        exact performs.flushed
      · rw [List.append_nil]
        exact performs.fields
      · rw [List.append_nil]
        exact fun s member => .inr (beforeTree.trans (performs.above s member))
  | val off new =>
      have plain : Plain b curObjRecs m (.val off new) _ _ := ⟨executeEntry_val m _ off new, by
        simp [flushRanges, Mem.scalar_within]⟩
      exact ⟨_, _, plain.executes fields elsewhere rfl rfl⟩
  | twoVal off1 value1 off2 value2 =>
      have plain : Plain b curObjRecs m (.twoVal off1 value1 off2 value2) _ _ :=
        ⟨executeEntry_twoVal m _ value1 value2 built.1 built.2, by
          simp [flushRanges, Mem.scalar_within]⟩
      exact ⟨_, _, plain.executes fields elsewhere rfl rfl⟩
  | str off progId =>
      have plain : Plain b curObjRecs m (.str off progId) _ _ :=
        ⟨Shm.Returns.putAll_pure m _ _, fun s member =>
          ⟨_, List.mem_singleton_self _, Mem.copy_within member⟩⟩
      exact ⟨_, _, plain.executes fields elsewhere rfl rfl⟩
  | objHdrAlloc p objPtr length slot availableSlots progId machineId =>
      have plain : Plain b curObjRecs m
          (.objHdrAlloc p objPtr length slot availableSlots progId machineId) _ _ :=
        ⟨executeEntry_objHdrAlloc m _ objPtr length slot availableSlots progId machineId built.1, by
          intro s member
          rcases hdrAllocStores_within built.2.1 (built.2.2.trans (by decide)) s member with
            within | within
          · exact ⟨_, List.mem_cons_self, within⟩
          · exact ⟨_, List.mem_cons_of_mem _ List.mem_cons_self,
              within.mono (Nat.le_add_right _ _) (Nat.le_refl _)⟩⟩
      exact ⟨_, _, plain.executes fields elsewhere rfl rfl⟩
  | objHdrFree p slot availableSlots =>
      have plain : Plain b curObjRecs m (.objHdrFree p slot availableSlots) _ _ :=
        ⟨executeEntry_objHdrFree m _ slot availableSlots built.1, fun s member =>
          ⟨_, List.mem_singleton_self _, hdrFreeStores_within built.2 s member⟩⟩
      exact ⟨_, _, plain.executes fields elsewhere rfl rfl⟩
  | initObjAllocRecs p =>
      have plain : Plain b curObjRecs m (.initObjAllocRecs p) _ _ :=
        ⟨executeEntry_initObjAllocRecs m _ built, fun s member =>
          ⟨_, List.mem_singleton_self _, initObjAllocationRecords_within s member⟩⟩
      exact ⟨_, _, plain.executes fields elsewhere rfl rfl⟩

/-- The entries of a log, executed from the one at `start` on. -/
theorem executeLogLoop_flushed (base log : Nat) (curObjRecs : Option Nat) {start : Nat}
    {entries : List LogEntry}
    (fits : ∀ entry ∈ entries, entry.Fits) (built : ∀ entry ∈ entries, WellBuilt b.tree entry)
    (elsewhere : ∀ entry ∈ entries,
      Elsewhere b.tree log (entryAddr log (start + entries.length)) entry)
    (beforeTree : entryAddr log (start + entries.length) ≤ b.tree.bits)
    (written : ∀ i entry, entries[i]? = some entry →
      Written m (entryAddr log (start + i)) entry)
    (fields : Fields b.tree m value) :
    ∃ events cur, (executeLogLoop b log entries.length start curObjRecs).Returns m events cur ∧
      flushesOf events = logFlush b.tree value entries ∧
      (FlushedBy (Covers base) [] m events ↔ LogCovered base b.tree value entries) := by
  induction entries generalizing m value start curObjRecs with
  | nil => exact ⟨[], curObjRecs, .pure _ _, rfl, Iff.rfl⟩
  | cons entry rest inductionHypothesis =>
      have last : start + (entry :: rest).length = start + 1 + rest.length := by
        rw [List.length_cons]
        omega
      rw [last] at elsewhere beforeTree
      have isFirst := (written 0 entry rfl).readEntry_eq (fits entry List.mem_cons_self).readable
      rw [Nat.add_zero] at isFirst
      obtain ⟨events, cur, executes⟩ := executes_entry base curObjRecs
        (built entry List.mem_cons_self) (elsewhere entry List.mem_cons_self) beforeTree fields
      have stillWritten : ∀ i e, rest[i]? = some e →
          Written (m.apply (storesOf events)) (entryAddr log (start + 1 + i)) e := by
        intro i e isEntry
        have before := written (i + 1) e isEntry
        have place : start + 1 + i = start + (i + 1) := by omega
        have bound : i < rest.length := (List.getElem?_eq_some_iff.mp isEntry).1
        rw [place]
        have eFits := fits e (List.mem_cons_of_mem _ (List.mem_of_getElem? isEntry))
        refine before.apply_outside eFits.readable
          fun s member => (executes.outside s member).mono (Nat.le_add_right _ _) ?_
        rw [← entryAddr_succ]
        exact entryAddr_le (by omega)
      obtain ⟨more, cur', returns, flushes, flushed⟩ := inductionHypothesis cur
        (fun e member => fits e (List.mem_cons_of_mem _ member))
        (fun e member => built e (List.mem_cons_of_mem _ member))
        (fun e member => elsewhere e (List.mem_cons_of_mem _ member)) beforeTree stillWritten
        executes.fields
      have sequenced : executeLogLoop b log (entry :: rest).length start curObjRecs m =
          (do
            let curObjRecs ← executeEntry b curObjRecs entry
            executeLogLoop b log rest.length (start + 1) curObjRecs : Pmem (Option Nat)) m := by
        rw [List.length_cons, executeLogLoop, Pmem.lift_get_bind]
        simp only [isFirst]
      refine ⟨events ++ more, cur', sequenced.trans (Pmem.Returns.bind executes.returns returns),
        ?_, ?_⟩
      · rw [flushesOf_append, executes.flushes, flushes, logFlush]
      · rw [flushedBy_append, executes.flushed, flushed, flushes, List.append_nil, LogCovered]

end Entries

/-- Executing a log returns, and writes back every byte it changes exactly when the fields it
writes are in one line each or the line of the first byte is written back later. -/
theorem executeLog_flushed_iff (base : Nat) (b : BuddyAlloc) (log : Nat) (curObjRecs : Option Nat)
    {m : Mem} {value : Nat → Nat} (fields : Fields b.tree m value) {entries : List LogEntry}
    (written : LogWritten m log entries) (fits : ∀ entry ∈ entries, entry.Fits)
    (built : ∀ entry ∈ entries, WellBuilt b.tree entry)
    (elsewhere : ∀ entry ∈ entries,
      Elsewhere b.tree log (entryAddr log entries.length) entry)
    (beforeTree : entryAddr log entries.length ≤ b.tree.bits) :
    ∃ events cur, (executeLog b log entries.length curObjRecs).Returns m events cur ∧
      (Flushed (Covers base) m events ↔ LogCovered base b.tree value entries) := by
  have last : 0 + entries.length = entries.length := Nat.zero_add _
  have placed : ∀ i entry, entries[i]? = some entry →
      Written m (entryAddr log (0 + i)) entry := by
    intro i entry isEntry
    rw [Nat.zero_add]
    exact written i entry isEntry
  obtain ⟨events, cur, returns, _, flushed⟩ := executeLogLoop_flushed base log curObjRecs fits built
    (by rwa [last]) (by rwa [last]) placed fields
  exact ⟨events, cur, returns, flushed_iff.trans flushed⟩

/-- An arena of 4 MiB, with its metadata behind it. -/
def arena : BuddyAlloc := ⟨65536, 4194304, 4096, ⟨11, 4260480, by decide⟩⟩

/-- The redo log, in front of the tree. -/
def arenaLog : Nat := 4259840

/-- The first allocation of two blocks. -/
theorem executeLog_flushed_iff_firstPair :
    ∃ m events cur, LogWritten m arenaLog [.buddyAlloc ⟨512, 10⟩] ∧
      (executeLog arena arenaLog 1 none).Returns m events cur ∧ Flushed (Covers 0) m events := by
  have fits : ∀ entry ∈ [LogEntry.buddyAlloc ⟨512, 10⟩], entry.Fits := by
    simp [LogEntry.Fits]
  obtain ⟨stores, _, within, committed⟩ :=
    @commitLog_spec arenaLog _ fits (by decide) fun _ => 0
  have zero : ∀ a, arena.tree.bits ≤ a → Mem.apply (fun _ => 0) stores a = 0 := fun a behind =>
    Mem.apply_of_not_covers (fun s member => (within s member).not_covers (.inr
      (Nat.le_trans (by decide : entryAddr arenaLog redologEntries ≤ arena.tree.bits) behind))) _
  have fields : Fields arena.tree (Mem.apply (fun _ => 0) stores) fun _ => 0 := by
    refine ⟨fun i node j inside => ?_, fun i node => Nat.zero_le _⟩
    rw [bit, zero _ (Nat.le_add_right _ _)]
    simp
  have built : ∀ entry ∈ [LogEntry.buddyAlloc ⟨512, 10⟩], WellBuilt arena.tree entry := by
    simp only [List.forall_mem_singleton]
    exact ⟨512, ⟨by decide, by decide⟩, by decide⟩
  obtain ⟨events, cur, returns, flushed⟩ := executeLog_flushed_iff 0 arena arenaLog none fields
    committed.written fits built (by simp [Elsewhere, flushRanges]) (by decide)
  exact ⟨_, events, cur, committed.written, returns, flushed.mpr (by decide +kernel)⟩

/-- Six objects of two blocks have been allocated. -/
def sixPairs : Mem :=
  [512, 513, 514, 515, 516, 517].foldl
    (fun m i => (Buddy.buddyTreeMark arena.tree (posOf i)).final m) fun _ => 0

/-- The log of the seventh allocation. -/
def seventhPair : List LogEntry :=
  [.buddyAlloc ⟨518, 10⟩, .objHdrAlloc 4096 114688 8192 6 333 [103, 0] 1,
    .twoVal 4456 4400 4400 4448, .twoVal 4448 0 4260408 4448]

/-- Executing it, and what that yields. -/
def seventhRun : List Event × Option (Option Nat) :=
  executeLog arena arenaLog 4 (some 4096) ((commitLog arenaLog seventhPair).final sixPairs)

/-- The field of node 518 ends in the next line: what it changes in its first byte is not
written back. -/
theorem seventhPair_not_flushed :
    buddyMallocFindPos arena sixPairs 8192 = ⟨518, 10⟩ ∧
      (executeLog arena arenaLog 4 (some 4096)).Returns
        ((commitLog arenaLog seventhPair).final sixPairs) seventhRun.1 (some 4096) ∧
      ¬ Flushed (Covers 0) ((commitLog arenaLog seventhPair).final sixPairs) seventhRun.1 := by
  have value : seventhRun.2 = some (some 4096) := by decide +kernel
  refine ⟨by decide +kernel, ?_, fun flushed => ?_⟩
  · rw [Pmem.Returns, ← value]
    exact (Prod.eta seventhRun).symm
  · have split : seventhRun.1 =
        seventhRun.1.take 2 ++ .store ⟨4260735, [255]⟩ :: seventhRun.1.drop 3 := by decide +kernel
    have covered := flushed _ _ _ split 4260735 (by decide +kernel)
    revert covered
    decide +kernel

end Lupin.Flush
