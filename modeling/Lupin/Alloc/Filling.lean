import Lupin.Alloc.System

/-!
# Filling a mapping

A mapping that has just been set up serves one request after the other until the record page is
full.
-/

namespace Lupin.Buddy

open Lupin.Memory Lupin.LevelTree

section Places

variable {a : Arena} {virtualSlots blocks : BlockSet a.tree.order} {s : AllocState}

/-- Blocks lie at multiples of their size. -/
theorem BlockAt.multiple {p : Nat} {block : Nat × Nat} (at_ : BlockAt a p block) :
    blockSize a.toBuddyAlloc block.2 ∣ block.1 - a.main := by
  rw [at_.address, addressForPosition, Nat.add_sub_cancel_left, blockSize, ← at_.sizeClass]
  exact Nat.dvd_mul_right _ _

/-- Blocks of one size that meet are the same. -/
theorem eq_of_not_apart {size start start' main : Nat} (above : main ≤ start)
    (above' : main ≤ start') (multiple : size ∣ start - main) (multiple' : size ∣ start' - main)
    (meet : ¬ Apart start size start' size) : start = start' := by
  obtain ⟨i, isMultiple⟩ := multiple
  obtain ⟨j, isMultiple'⟩ := multiple'
  unfold Apart at meet
  have notLess : ¬ i < j := fun less => by
    have := Nat.mul_le_mul_left size less
    rw [Nat.mul_succ] at this
    omega
  have notMore : ¬ j < i := fun more => by
    have := Nat.mul_le_mul_left size more
    rw [Nat.mul_succ] at this
    omega
  obtain rfl : i = j := by omega
  omega

/-- As long as blocks of one size are fewer than the places for them, there is another one. -/
theorem AllocInvariant.valid_of_few (invariant : AllocInvariant a virtualSlots s blocks)
    (atEnd : CoversFrom virtualSlots (2 ^ (a.tree.order - 1) + a.blocks)) {requested : Nat}
    (large : requested ≤ blockSize a.toBuddyAlloc requested)
    (sameSize : ∀ block ∈ s.live,
      blockSize a.toBuddyAlloc block.2 = blockSize a.toBuddyAlloc requested)
    (few : (s.live.length + 1) * blockSize a.toBuddyAlloc requested ≤ a.memorySize) :
    buddyTreeValid a.tree (buddyMallocFindPos a.toBuddyAlloc s.mem requested) = true := by
  by_contra invalid
  rw [Bool.not_eq_true] at invalid
  -- every place is the start of a block that is live
  have taken : ∀ k < s.live.length + 1,
      a.main + blockSize a.toBuddyAlloc requested * k ∈ s.live.map Prod.fst := by
    intro k below
    obtain ⟨block, isLive, meet⟩ := invariant.complete atEnd invalid large
      (Nat.dvd_mul_right _ k) (by
      rw [← Nat.mul_succ]
      exact (Nat.mul_le_mul_left _ below).trans (by rwa [Nat.mul_comm]))
    have at_ := (invariant.live block isLive).1
    have multiple := at_.multiple
    rw [sameSize block isLive] at meet multiple
    refine List.mem_map.mpr ⟨block, isLive, ?_⟩
    refine eq_of_not_apart at_.aligned.1 (Nat.le_add_right _ _) multiple ?_ meet
    rw [Nat.add_sub_cancel_left]
    exact Nat.dvd_mul_right _ k
  have positive : 0 < blockSize a.toBuddyAlloc requested := by
    obtain ⟨_, member, _⟩ := List.mem_map.mp (taken 0 (Nat.succ_pos _))
    rw [← sameSize _ member]
    exact lt_of_lt_of_le (lt_of_lt_of_le a.alignment_pos (le_max_right _ _))
      (invariant.live _ member).1.large
  have distinct : ((List.range (s.live.length + 1)).map
      fun k => a.main + blockSize a.toBuddyAlloc requested * k).Nodup :=
    List.nodup_range.map fun i j same =>
      Nat.eq_of_mul_eq_mul_left positive (Nat.add_left_cancel same)
  have fewer := (distinct.subperm fun x isPlace => by
    obtain ⟨k, inRange, rfl⟩ := List.mem_map.mp isPlace
    exact taken k (List.mem_range.mp inRange)).length_le
  simp at fewer

end Places

end Lupin.Buddy

namespace Lupin.Alloc

open Lupin.Memory Lupin.HeapIndex Lupin.LevelTree Lupin.Buddy Lupin.Log Lupin.LinkedList
  Lupin.Transition

/-- The first machine fills the first page with regions of one length. -/
structure Filling (s : Mapping) (first : UInt16) (length : Nat) (state : State) : Prop where
  alive : state.dead = none
  isCur : state.cur first = some firstRecords
  slots :
    state.mem.read 2 (availableSlotsAddr firstRecords) + state.ledger.held.length = numObjSlots
  consistent : ∃ headers live,
    Consistent s state.mem state.cur state.ledger [firstRecords] headers live
  lengths : ∀ object ∈ state.ledger.held, object.length = length
  dir : state.ledger.dir = ⟨state.ledger.held.reverse, false⟩
  lost : state.ledger.lost = []

section Filling

variable {s : Mapping} {g : Setting} {buddySize : Nat} {first : UInt16} {prior : Mem} {length : Nat}
  {state : State}

theorem Setting.On.filling (on : g.On s) (buddySize : Nat) (first : UInt16) (prior : Mem)
    (length : Nat) : Filling s first length (g.machine buddySize first prior).initial := by
  obtain ⟨m, initial, sound, _, available⟩ := on.initial buddySize first prior
  have isCur :
      Function.update (fun _ => none) first (some firstRecords) first = some firstRecords :=
    Function.update_self ..
  rw [initial]
  refine ⟨rfl, isCur, available, ⟨[], [], sound, ?_, ?_, .refl _, fun some => absurd rfl some⟩,
    fun object none => absurd none List.not_mem_nil, rfl, rfl⟩
  · exact ⟨.nil, by simp [Ledger.empty, Directory.empty]⟩
  · refine update_current (fun _ _ none => absurd none (by simp)) (fun p isFirst => ?_) first
    exact List.mem_singleton.mpr (Option.some.inj isFirst).symm

/-- There is a block for the next region. -/
theorem Filling.hasBlock (filling : Filling s first length state)
    (large : length ≤ blockSize s.arena.toBuddyAlloc length)
    (fits : (state.ledger.held.length + 1) * blockSize s.arena.toBuddyAlloc length ≤
      s.arena.memorySize) : s.HasBlock state.mem length := by
  obtain ⟨headers, live, consistent⟩ := filling.consistent
  obtain ⟨_, _, atEnd, invariant⟩ := consistent.sound.tree
  have blocks : (state.ledger.held.map Object.block).Perm live := by
    have same := consistent.blocks
    rw [Ledger.blocks, filling.lost] at same
    simpa [pageBlocks] using same
  refine invariant.valid_of_few atEnd large (fun block isLive => ?_) ?_
  · obtain ⟨object, isHeld, rfl⟩ := List.mem_map.mp (blocks.mem_iff.mpr isLive)
    exact congrArg _ (filling.lengths object isHeld)
  · rwa [← blocks.length_eq, List.length_map]

/-- One more region. -/
theorem Filling.step (on : g.On s) (filling : Filling s first length state)
    (large : length ≤ blockSize s.arena.toBuddyAlloc length)
    (slot : state.ledger.held.length < numObjSlots)
    (fits : (state.ledger.held.length + 1) * blockSize s.arena.toBuddyAlloc length ≤
      s.arena.memorySize) (name : ProgId) :
    ∃ next, g.step state (.call first (.allocate length name)) = some next ∧
      g.Orderly state (.call first (.allocate length name)) next ∧ Filling s first length next ∧
      next.ledger.held = ⟨s.block state.mem length, length, name⟩ :: state.ledger.held := by
  have slots := filling.slots
  have available : 0 < state.mem.read 2 (availableSlotsAddr firstRecords) := by omega
  have room : Room s state.mem firstRecords length :=
    ⟨filling.hasBlock large fits, fun full => absurd full available.ne',
      fun full => absurd full available.ne'⟩
  obtain ⟨headers, live, consistent⟩ := filling.consistent
  obtain ⟨stores, returns, placed, after⟩ := consistent.allocated (on.joined state first)
    (show (g.dram state first).curObjRecs = some firstRecords from filling.isCur) room name
  have isNew : newCur s state.mem firstRecords = firstRecords := if_pos available
  have samePages : newPages s state.mem firstRecords [firstRecords] = [firstRecords] :=
    if_pos available
  rw [samePages] at placed after
  rw [isNew] at after returns
  have left := placed.slots firstRecords (List.mem_singleton_self _)
    (firstClearSlot state.mem firstRecords) ?_ (if_pos available)
  · rw [slotsLeft, if_pos (List.mem_singleton_self _)] at left
    rw [← on.shmem] at returns
    refine ⟨_, step_allocate filling.alive returns, fun p isCur full => ?_,
      ⟨rfl, Function.update_self .., ?_, ⟨_, _, after⟩, ?_, ?_, filling.lost⟩, rfl⟩
    · obtain rfl := Option.some.inj (filling.isCur.symm.trans isCur)
      exact absurd full available.ne'
    · change (state.mem.apply stores).read 2 (availableSlotsAddr firstRecords) +
        (state.ledger.held.length + 1) = numObjSlots
      omega
    · exact List.forall_mem_cons.mpr ⟨rfl, filling.lengths⟩
    · change state.ledger.dir.insert _ = ⟨(_ :: state.ledger.held).reverse, false⟩
      rw [filling.dir, Directory.insert, if_neg (by simp), List.reverse_cons]
  · have shape := consistent.sound.shape
    exact (firstClearSlot_spec (shape.maps _ (List.mem_singleton_self _)).available available).1

/-- Two regions with names of their own, and the directory of them. -/
theorem Filling.two (filling : Filling s first length state) {name name' : ProgId}
    (named : state.ledger.held.map Object.name = [name', name]) (different : name ≠ name') :
    ∃ older newer, state.ledger.held = [newer, older] ∧ older.name = name ∧ newer.name = name' ∧
      state.ledger.dir.entries = [older] ++ newer :: [] ∧ ∀ o ∈ [older], o.name ≠ newer.name := by
  obtain ⟨newer, rest, held, newName, others⟩ := List.map_eq_cons_iff.mp named
  obtain ⟨older, rfl, oldName⟩ := List.map_eq_singleton_iff.mp others
  refine ⟨older, newer, held, oldName, newName, ?_, fun o isOlder => ?_⟩
  · rw [filling.dir, held]
    rfl
  · rw [List.mem_singleton.mp isOlder, oldName, newName]
    exact different

/-- Requests of one length, one after the other. -/
def requests (first : UInt16) (length : Nat) (names : List ProgId) : List Action :=
  names.map fun name => .call first (.allocate length name)

/-- The guard admits orderly requests of this length under these names, one after the other. -/
def Setting.Requests (g : Setting) (first : UInt16) (length : Nat) (names : List ProgId)
    (guard : Guard State Action) : Prop :=
  ∀ done name rest, names = done ++ name :: rest → ∀ state next,
    state.ledger.held.map Object.name = done.reverse →
    g.Orderly state (.call first (.allocate length name)) next →
    guard state (.call first (.allocate length name)) next

/-- As many regions as there are slots and places for. -/
theorem Filling.run (on : g.On s) {guard : Guard State Action} {names : List ProgId}
    (admits : g.Requests first length names guard)
    (large : length ≤ blockSize s.arena.toBuddyAlloc length) (slots : names.length ≤ numObjSlots)
    (fits : names.length * blockSize s.arena.toBuddyAlloc length ≤ s.arena.memorySize)
    {done rest : List ProgId} (split : names = done ++ rest)
    (filling : Filling s first length state)
    (named : state.ledger.held.map Object.name = done.reverse)
    (reached : (g.machine buddySize first prior).Reachable guard state) :
    ∃ final, (g.machine buddySize first prior).runFrom state (requests first length rest) =
        some final ∧
      (g.machine buddySize first prior).Reachable guard final ∧ Filling s first length final ∧
      final.ledger.held.map Object.name = names.reverse := by
  induction rest generalizing state done with
  | nil =>
      rw [List.append_nil] at split
      exact ⟨state, rfl, reached, filling, split ▸ named⟩
  | cons name rest inductionHypothesis =>
      have count : state.ledger.held.length + 1 ≤ names.length := by
        have lengths := congrArg List.length named
        rw [List.length_map, List.length_reverse] at lengths
        rw [split, List.length_append, List.length_cons]
        omega
      obtain ⟨next, transition, allowed, filling', held⟩ := filling.step on large (by omega)
        ((Nat.mul_le_mul_right _ count).trans fits) name
      obtain ⟨final, ran, after, filled, named⟩ :=
        @inductionHypothesis next (done ++ [name]) (by rw [split, List.append_assoc]; rfl) filling'
          (by rw [held, List.map_cons, named, List.reverse_concat])
          (reachable_step reached transition (admits done name rest split _ _ named allowed))
      refine ⟨final, ?_, after, filled, named⟩
      have taken : (g.machine buddySize first prior).step state
          (.call first (.allocate length name)) = some next := transition
      rw [requests, List.map_cons, Machine.runFrom, taken]
      exact ran

end Filling

section Filled

variable {g : Setting} {buddySize : Nat} {length : Nat}

/-- The state after so many requests of one length. -/
theorem filled_of_accepted {guard : Guard State Action} {first : UInt16} {names : List ProgId}
    (admits : g.Requests first length names guard)
    (accepted : metaShmemOf g.memLength = some (g.shmem, buddySize)) (bound : g.memLength ≤ 2 ^ 62)
    (prior : Mem) (large : length ≤ blockSize g.shmem.buddyAlloc length)
    (slots : names.length ≤ numObjSlots)
    (fits : names.length * blockSize g.shmem.buddyAlloc length ≤ g.shmem.buddyAlloc.memorySize) :
    ∃ s state, g.On s ∧ (g.machine buddySize first prior).runFrom
        (g.machine buddySize first prior).initial (requests first length names) = some state ∧
      (g.machine buddySize first prior).Reachable guard state ∧ Filling s first length state ∧
      state.ledger.held.map Object.name = names.reverse := by
  obtain ⟨s, shmem, memLength⟩ := exists_mapping accepted bound
  have on : g.On s := ⟨shmem.symm, memLength.symm⟩
  rw [on.shmem, s.buddyAlloc_eq] at large fits
  have nothing : (g.machine buddySize first prior).initial.ledger.held = [] := by
    obtain ⟨_, initial, _⟩ := on.initial buddySize first prior
    rw [initial]
    rfl
  obtain ⟨state, ran, reached, filled, named⟩ := Filling.run on admits large slots fits
    (List.nil_append names).symm (on.filling buddySize first prior length) (by rw [nothing]; rfl)
    .initial
  exact ⟨s, state, on, ran, reached, filled, named⟩

end Filled

/-! ## Two mappings -/

def sampleName : ProgId := ⟨⟨[109, 49], by decide⟩, by decide⟩

def secondName : ProgId := ⟨⟨[109, 50], by decide⟩, by decide⟩

/-- A mapping with an arena of 39 blocks. -/
def smallSetting : Setting where
  shmem := ⟨261376, ⟨98304, 159744, 4096, ⟨7, 262032, by decide⟩⟩⟩
  memLength := 262144
  memStart := fun _ => 4096

set_option maxRecDepth 4000 in
theorem smallSetting_accepted :
    metaShmemOf smallSetting.memLength = some (smallSetting.shmem, 768) := by
  change metaShmemOf 262144 = _
  rfl

set_option maxRecDepth 4000 in
theorem smallSetting_located :
    Layout.recoverMetaAddress smallSetting.memLength = some smallSetting.shmem.base := by
  change Layout.recoverMetaAddress 262144 = _
  rfl

/-- Allocations of a block each in the small mapping. -/
theorem smallSetting_filled_of {guard : Guard State Action} {names : List ProgId}
    (admits : smallSetting.Requests 1 4096 names guard) (few : names.length ≤ 39) :
    ∃ s state, smallSetting.On s ∧
      (smallSetting.machine 768 1 fun _ => 0).Reachable guard state ∧
      Filling s 1 4096 state ∧ state.ledger.held.map Object.name = names.reverse := by
  obtain ⟨s, state, on, _, reached, filled, named⟩ := filled_of_accepted admits
    smallSetting_accepted (by decide) (fun _ => 0)
    (by decide : 4096 ≤ blockSize smallSetting.shmem.buddyAlloc 4096)
    (few.trans (by decide)) ((Nat.mul_le_mul_right _ few).trans (by decide))
  exact ⟨s, state, on, reached, filled, named⟩

theorem smallSetting_filled (names : List ProgId) (few : names.length ≤ 39) :
    ∃ s state, smallSetting.On s ∧
      (smallSetting.machine 768 1 fun _ => 0).Reachable smallSetting.Orderly state ∧
      Filling s 1 4096 state ∧ state.ledger.held.map Object.name = names.reverse :=
  smallSetting_filled_of (fun _ _ _ _ _ _ _ => id) few

/-- The next allocation. -/
theorem smallSetting_next {s : Mapping} {state : State} (on : smallSetting.On s)
    (filled : Filling s 1 4096 state) (few : state.ledger.held.length < 39) (name : ProgId) :
    ∃ next, smallSetting.step state (.call 1 (.allocate 4096 name)) = some next ∧
      smallSetting.Orderly state (.call 1 (.allocate 4096 name)) next ∧ Filling s 1 4096 next ∧
      next.ledger.held = ⟨s.block state.mem 4096, 4096, name⟩ :: state.ledger.held := by
  have arena : smallSetting.shmem.buddyAlloc = s.arena.toBuddyAlloc := by
    rw [on.shmem, s.buddyAlloc_eq]
  have few' : state.ledger.held.length + 1 ≤ 39 := few
  refine filled.step on (by rw [← arena]; decide) (few.trans (by decide)) ?_ name
  rw [← arena]
  exact (Nat.mul_le_mul_right _ few').trans (by decide)

/-- A mapping with an arena of 505 pages. -/
def wideSetting : Setting where
  shmem := ⟨8386808, ⟨98304, 8286208, 4096, ⟨12, 8387464, by decide⟩⟩⟩
  memLength := 8388608
  memStart := fun _ => 4096

set_option maxRecDepth 8000 in
theorem wideSetting_accepted :
    metaShmemOf wideSetting.memLength = some (wideSetting.shmem, 1800) := by
  change metaShmemOf 8388608 = _
  rfl

theorem wideSetting_located :
    Layout.recoverMetaAddress wideSetting.memLength = some wideSetting.shmem.base := by
  change Layout.recoverMetaAddress 8388608 = _
  rfl

end Lupin.Alloc
