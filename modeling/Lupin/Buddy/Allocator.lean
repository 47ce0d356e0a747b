import Lupin.Buddy.Arena
import Lupin.Lib.Transition
import Lupin.Meta.Layout

/-!
# The split interface as an allocator

Runs of `buddy_malloc_find_pos` with `buddy_malloc_apply` and of
`buddy_free_find_pos` with `buddy_free_apply` on an arena that
`metashmem_init_alignment` has set up. The blocks handed out are the taken nodes
that are not virtual slots.
-/

namespace Lupin.Buddy

open Lupin.Memory Lupin.HeapIndex Lupin.LevelTree Lupin.Transition

/-- The arena `metashmem_init_alignment` sets up, the tree following
`struct meta_shmem` at `base`. The shifts of the tree are defined for orders up to
31 only. -/
def metashmemInitAlignment (base main memorySize alignment : Nat) : Option BuddyAlloc :=
  if base = 0 ∨ main = 0 then none
  else if Layout.metashmemInitAccepts base main memorySize alignment = false then none
  else
    let memorySize := memorySize - memorySize % alignment
    if order_le : buddyTreeOrderForMemory memorySize alignment ≤ 31 then
      some
        { main, memorySize, alignment
          tree :=
            { order := buddyTreeOrderForMemory memorySize alignment
              bits := base + Layout.sizeofMetaShmem + 24
              order_le } }
    else none

/-- The tree as `metashmem_init_alignment` leaves it. -/
def setUp (b : BuddyAlloc) : Shm Unit := do
  buddyTreeInit b.tree
  buddyToggleVirtualSlots b true

/-- Memory and the live blocks: address and requested size. -/
structure AllocState where
  mem : Mem
  live : List (Nat × Nat)

inductive AllocAction where
  | malloc (requestedSize : Nat)
  | free (block : Nat × Nat)

/-- One step of a client: allocate, or free a live block. -/
def allocStep (b : BuddyAlloc) (s : AllocState) : AllocAction → Option AllocState
  | .malloc requestedSize =>
      let pos := buddyMallocFindPos b s.mem requestedSize
      if buddyTreeValid b.tree pos then
        ((buddyMallocApply b pos).run s.mem).map fun (mem, addr) =>
          ⟨mem, (addr, requestedSize) :: s.live⟩
      else some s
  | .free block =>
      if block ∈ s.live then
        let pos := buddyFreeFindPos b s.mem block.1 block.2
        ((buddyFreeApply b pos).run s.mem).map fun (mem, _) => ⟨mem, s.live.erase block⟩
      else none

/-- Runs of clients from a fresh arena in memory that held `prior`. -/
def allocMachine (b : BuddyAlloc) (prior : Mem) : Machine AllocState AllocAction where
  initial := ⟨(setUp b).final prior, []⟩
  step := allocStep b

theorem allocMachine_mem (b : BuddyAlloc) (prior : Mem) :
    (allocMachine b prior).initial.mem = (setUp b).final prior := by
  simp only [allocMachine]

theorem allocMachine_live (b : BuddyAlloc) (prior : Mem) :
    (allocMachine b prior).initial.live = [] := rfl

/-- The bytes of the block for a request. -/
def blockSize (b : BuddyAlloc) (requestedSize : Nat) : Nat :=
  sizeForDepth b (depthForSize b requestedSize)

/-- Two regions have no byte in common. -/
def Apart (start size start' size' : Nat) : Prop :=
  start + size ≤ start' ∨ start' + size' ≤ start

/-! ## The arenas that are set up -/

section SetUp

variable {base main memorySize alignment : Nat} {b : BuddyAlloc}

/-- What `metashmem_init_alignment` has checked and what it builds. -/
theorem metashmemInitAlignment_eq_some
    (accepted : metashmemInitAlignment base main memorySize alignment = some b) :
    main ≠ 0 ∧ Layout.metashmemInitAccepts base main memorySize alignment = true ∧
      b.main = main ∧ b.memorySize = memorySize - memorySize % alignment ∧
      b.alignment = alignment ∧
      b.tree.order = buddyTreeOrderForMemory (memorySize - memorySize % alignment) alignment ∧
      b.tree.bits = base + Layout.sizeofMetaShmem + 24 := by
  unfold metashmemInitAlignment at accepted
  split at accepted
  · exact absurd accepted (by simp)
  rename_i notNull
  split at accepted
  · exact absurd accepted (by simp)
  rename_i accepts
  dsimp only at accepted
  split at accepted
  · obtain rfl := Option.some.inj accepted
    rw [Bool.not_eq_false] at accepts
    exact ⟨fun isNull => notNull (.inr isNull), accepts, by simp only [and_self]⟩
  · exact absurd accepted (by simp)

theorem exists_arena (accepted : metashmemInitAlignment base main memorySize alignment = some b)
    (bound : memorySize ≤ 2 ^ 62) : ∃ a : Arena, a.toBuddyAlloc = b := by
  obtain ⟨notNull, accepts, isMain, size, isAlignment, order, _⟩ :=
    metashmemInitAlignment_eq_some accepted
  simp only [Layout.metashmemInitAccepts, Bool.and_eq_true, decide_eq_true_eq] at accepts
  obtain ⟨⟨⟨⟨_, valid⟩, _⟩, _⟩, enough⟩ := accepts
  rw [isValidAlignment, beq_iff_eq] at valid
  have positive : 0 < alignment := by
    by_contra zero
    rw [Nat.eq_zero_of_not_pos zero] at valid
    exact absurd valid (by decide)
  have power : alignment = 2 ^ (alignment - 1).size := by
    rw [← ceilingPowerOfTwo_eq positive (by omega), valid]
  have trimmed : memorySize - memorySize % alignment = memorySize / alignment * alignment := by
    have := Nat.div_add_mod memorySize alignment
    rw [Nat.mul_comm] at this
    omega
  have blocksPositive : 0 < memorySize / alignment := by
    rw [trimmed] at enough
    by_contra zero
    rw [Nat.eq_zero_of_not_pos zero] at enough
    omega
  have quotient : (memorySize - memorySize % alignment) / alignment = memorySize / alignment := by
    rw [trimmed, Nat.mul_div_cancel _ positive]
  have blocksBound : memorySize / alignment ≤ memorySize := Nat.div_le_self _ _
  exact ⟨{
    toBuddyAlloc := b
    unit := (alignment - 1).size
    blocks := memorySize / alignment
    alignment_eq := isAlignment.trans power
    memorySize_eq := by rw [size, ← power, trimmed]
    blocks_pos := blocksPositive
    memorySize_le := by rw [size]; exact le_trans (Nat.sub_le _ _) bound
    order_eq := by
      rw [order, buddyTreeOrderForMemory_eq (by rw [quotient]; exact blocksPositive)
        (by rw [quotient]; omega), quotient]
    main_pos := by omega }, rfl⟩

/-- The parts of an arena with its metadata at `base`, counted from its start. -/
def BuddyAlloc.parts (b : BuddyAlloc) (base : Nat) : Layout.Embedded :=
  let data := b.tree.bits - b.main
  { arena := ⟨0, b.memorySize⟩
    metadata :=
      ⟨base - b.main, base - b.main + Layout.sizeofMetaShmem + buddyTreeSizeof b.tree.order⟩
    bitset := ⟨data, data + bitsetSizeof (sizeForOrder b.tree.order 0)⟩
    table :=
      ⟨data + 8 * Layout.sizeForOrderOffset b.tree.order,
        data + 8 * (Layout.sizeForOrderOffset b.tree.order + b.tree.order + 1)⟩ }

/-- The layout of the metadata is that of the arena that is built. -/
theorem embedded_eq_parts {result : Layout.BuddyEmbedCheck}
    (accepted : metashmemInitAlignment (main + result.offset) main result.offset
      Layout.buddyAllocAlignment = some b) :
    Layout.embedded result = b.parts (main + result.offset) := by
  obtain ⟨_, _, isMain, size, _, order, bits⟩ := metashmemInitAlignment_eq_some accepted
  have place : main + result.offset - b.main = result.offset := by omega
  have data : b.tree.bits - b.main = result.offset + Layout.sizeofMetaShmem + 24 := by omega
  rw [BuddyAlloc.parts, place, data, size, order]
  rfl

end SetUp

/-! ## Live blocks and taken nodes -/

section Live

variable {a : Arena}

/-- The node of a block, from its address and size class. -/
def blockNode (b : BuddyAlloc) (block : Nat × Nat) : Nat :=
  2 ^ (depthForSize b block.2 - 1) + (block.1 - b.main) / blockSize b block.2

/-- The block was handed out for node `p`. -/
structure BlockAt (a : Arena) (p : Nat) (block : Nat × Nat) : Prop where
  node : Node a.tree.order p
  fits : block.2 ≤ a.memorySize
  address : block.1 = addressForPosition a.toBuddyAlloc (posOf p)
  sizeClass : p.size = depthForSize a.toBuddyAlloc block.2

theorem BlockAt.blockNode_eq {p : Nat} {block : Nat × Nat} (at_ : BlockAt a p block) :
    blockNode a.toBuddyAlloc block = p := by
  have low := at_.node.low
  have size : sizeForDepth a.toBuddyAlloc p.size = blockSize a.toBuddyAlloc block.2 := by
    rw [blockSize, at_.sizeClass]
  have positive : 0 < blockSize a.toBuddyAlloc block.2 := by
    rw [← size, a.sizeForDepth_node at_.node]
    exact Nat.mul_pos (by positivity) a.alignment_pos
  have offset : block.1 - a.main =
      blockSize a.toBuddyAlloc block.2 * (p - 2 ^ (p.size - 1)) := by
    rw [at_.address, addressForPosition, buddyTreeIndex_posOf at_.node, Nat.add_sub_cancel_left,
      ← size]
    rfl
  unfold blockNode
  rw [offset, Nat.mul_div_cancel_left _ positive, ← at_.sizeClass]
  omega

/-- The node of a block covers the leaves of its bytes. -/
theorem BlockAt.covers_iff {p offset : Nat} {block : Nat × Nat} (at_ : BlockAt a p block) :
    Covers a.tree.order p (a.leafOf offset) ↔
      block.1 ≤ a.main + offset ∧ a.main + offset < block.1 + blockSize a.toBuddyAlloc block.2 := by
  rw [a.covers_leafOf at_.node, at_.address, at_.sizeClass]
  rfl

theorem BlockAt.large {p : Nat} {block : Nat × Nat} (at_ : BlockAt a p block) :
    max block.2 a.alignment ≤ blockSize a.toBuddyAlloc block.2 :=
  (a.depthForSize_spec at_.fits).2.2.1

theorem BlockAt.aligned {p : Nat} {block : Nat × Nat} (at_ : BlockAt a p block) :
    a.main ≤ block.1 ∧ a.alignment ∣ block.1 - a.main := by
  rw [at_.address, a.addressForPosition_posOf at_.node, Nat.add_sub_cancel_left]
  exact ⟨Nat.le_add_right _ _, Nat.dvd_mul_left _ _⟩

/-- The leaves of the bytes behind the end of memory are those of the virtual slots. -/
theorem leafOf_virtual {offset : Nat} :
    2 ^ (a.tree.order - 1) + a.blocks ≤ a.leafOf offset ↔ a.memorySize ≤ offset := by
  have memory : a.memorySize = a.blocks * a.alignment := by
    rw [a.memorySize_eq, a.alignment_eq]
  rw [memory, ← Nat.le_div_iff_mul_le a.alignment_pos]
  unfold Arena.leafOf
  omega

theorem exists_leafOf {leaf : Nat} (low : 2 ^ (a.tree.order - 1) ≤ leaf) :
    ∃ place, a.leafOf place = leaf := by
  refine ⟨(leaf - 2 ^ (a.tree.order - 1)) * a.alignment, ?_⟩
  rw [Arena.leafOf, Nat.mul_div_cancel _ a.alignment_pos]
  omega

/-- Of two vacant nodes whose blocks are apart, one stays vacant when the other is taken. -/
theorem BlockAt.vacant_insert {blocks : BlockSet a.tree.order} {p q : Nat}
    {block block' : Nat × Nat}
    (at_ : BlockAt a p block) (at' : BlockAt a q block') (vacant : blocks.Vacant p)
    (vacant' : blocks.Vacant q)
    (apart : Apart block.1 (blockSize a.toBuddyAlloc block.2) block'.1
      (blockSize a.toBuddyAlloc block'.2)) :
    (blocks.insert p at_.node vacant).Vacant q := by
  refine BlockSet.vacant_of_not_covered at'.node fun leaf covers covered => ?_
  rcases BlockSet.covered_insert.mp covered with inOther | inBlocks
  · obtain ⟨low, _⟩ := at'.node.leaf_bounds covers
    obtain ⟨place, rfl⟩ := exists_leafOf low
    have first := at_.covers_iff.mp inOther
    have second := at'.covers_iff.mp covers
    unfold Apart at apart
    omega
  · exact vacant'.not_covered at'.node covers inBlocks

end Live

/-! ## The invariant of runs -/

/-- The tree has the virtual slots and the nodes of the live blocks taken. -/
structure AllocInvariant (a : Arena) (virtualSlots : BlockSet a.tree.order) (s : AllocState)
    (blocks : BlockSet a.tree.order) : Prop where
  represents : Represents a.tree s.mem blocks.taken
  accounted : ∀ i, blocks.taken i = true ↔
    virtualSlots.taken i = true ∨ i ∈ s.live.map (blockNode a.toBuddyAlloc)
  live : ∀ block ∈ s.live, BlockAt a (blockNode a.toBuddyAlloc block) block ∧
    virtualSlots.taken (blockNode a.toBuddyAlloc block) = false
  distinct : (s.live.map (blockNode a.toBuddyAlloc)).Nodup

section Steps

variable {a : Arena} {virtualSlots blocks : BlockSet a.tree.order} {s : AllocState}

theorem AllocInvariant.taken (invariant : AllocInvariant a virtualSlots s blocks)
    {block : Nat × Nat} (member : block ∈ s.live) :
    blocks.taken (blockNode a.toBuddyAlloc block) = true :=
  (invariant.accounted _).mpr (.inr (List.mem_map_of_mem member))

/-- A live block ends before the virtual slots start. -/
theorem AllocInvariant.inside (invariant : AllocInvariant a virtualSlots s blocks)
    (atEnd : CoversFrom virtualSlots (2 ^ (a.tree.order - 1) + a.blocks))
    {block : Nat × Nat} (member : block ∈ s.live) :
    block.1 + blockSize a.toBuddyAlloc block.2 ≤ a.main + a.memorySize := by
  obtain ⟨at_, notVirtual⟩ := invariant.live block member
  have large := at_.large
  have alignment := a.alignment_pos
  have start := at_.aligned.1
  by_contra beyond
  -- the last byte of the block would belong to a virtual slot as well
  have covers : Covers a.tree.order (blockNode a.toBuddyAlloc block)
      (a.leafOf (block.1 + blockSize a.toBuddyAlloc block.2 - 1 - a.main)) :=
    at_.covers_iff.mpr (by omega)
  obtain ⟨low, high⟩ := at_.node.leaf_bounds covers
  obtain ⟨i, isVirtual, covering⟩ := (atEnd _ low high).mpr (leafOf_virtual.mpr (by omega))
  have same := blocks.eq_of_covers ((invariant.accounted i).mpr (.inl isVirtual))
    (invariant.taken member) covering covers
  rw [same, notVirtual] at isVirtual
  exact Bool.false_ne_true isVirtual

theorem AllocInvariant.congr (invariant : AllocInvariant a virtualSlots s blocks) {m' : Mem}
    (same : ∀ x, a.tree.bits ≤ x → m' x = s.mem x) :
    AllocInvariant a virtualSlots ⟨m', s.live⟩ blocks :=
  ⟨invariant.represents.congr same, invariant.accounted, invariant.live, invariant.distinct⟩

/-- Marking a vacant node adds its block. -/
theorem AllocInvariant.mark (invariant : AllocInvariant a virtualSlots s blocks) {p : Nat}
    {block : Nat × Nat} (at_ : BlockAt a p block) (vacant : blocks.Vacant p) :
    ∃ stores, (buddyMallocApply a.toBuddyAlloc (posOf p)).Returns s.mem stores block.1 ∧
      AllocInvariant a virtualSlots ⟨s.mem.apply stores, block :: s.live⟩
        (blocks.insert p at_.node vacant) ∧
      TreeFrame a.tree s.mem (s.mem.apply stores) := by
  obtain ⟨stores, returns, after, frame⟩ :=
    buddyMallocApply_spec invariant.represents at_.node vacant
  rw [← at_.address] at returns
  have fresh : p ∉ s.live.map (blockNode a.toBuddyAlloc) := by
    intro member
    have := (invariant.accounted p).mpr (.inr member)
    rw [vacant.not_taken] at this
    exact Bool.false_ne_true this
  have notVirtual : virtualSlots.taken p = false := by
    rw [Bool.eq_false_iff]
    intro isVirtual
    have := (invariant.accounted p).mpr (.inl isVirtual)
    rw [vacant.not_taken] at this
    exact Bool.false_ne_true this
  refine ⟨stores, returns, ⟨after, ?_, ?_, ?_⟩, frame⟩
  · intro i
    rw [List.map_cons, at_.blockNode_eq, List.mem_cons]
    change Function.update blocks.taken p true i = true ↔ _
    by_cases here : i = p
    · simp [here]
    · rw [Function.update_of_ne here, invariant.accounted i]
      simp [here]
  · intro other member
    rcases List.mem_cons.mp member with rfl | old
    · rw [at_.blockNode_eq]
      exact ⟨at_, notVirtual⟩
    · exact invariant.live other old
  · rw [List.map_cons, at_.blockNode_eq, List.nodup_cons]
    exact ⟨fresh, invariant.distinct⟩

/-- An allocation adds a block for a vacant node. -/
theorem AllocInvariant.malloc (invariant : AllocInvariant a virtualSlots s blocks)
    (requested : Nat) :
    (∃ s' blocks', allocStep a.toBuddyAlloc s (.malloc requested) = some s' ∧
      AllocInvariant a virtualSlots s' blocks') := by
  unfold allocStep
  rcases buddyMallocFindPos_spec invariant.represents requested with
    ⟨invalid, _⟩ | ⟨fits, p, found, node, sizeClass, vacant⟩
  · refine ⟨s, blocks, ?_, invariant⟩
    simp only [invalid, invalidPos_not_valid, Bool.false_eq_true, if_false]
  · have at_ : BlockAt a p (addressForPosition a.toBuddyAlloc (posOf p), requested) :=
      ⟨node, fits, rfl, sizeClass⟩
    obtain ⟨stores, returns, after, _⟩ := invariant.mark at_ vacant
    refine ⟨_, _, ?_, after⟩
    simp only [found, posOf_valid.mpr node, if_true, returns.run_eq, Option.map_some]

/-- The node of a live block is found and its release removes the block. -/
theorem AllocInvariant.release (invariant : AllocInvariant a virtualSlots s blocks)
    (atEnd : CoversFrom virtualSlots (2 ^ (a.tree.order - 1) + a.blocks))
    {block : Nat × Nat} (member : block ∈ s.live) :
    ∃ p stores, BlockAt a p block ∧
      buddyFreeFindPos a.toBuddyAlloc s.mem block.1 block.2 = posOf p ∧
      (buddyFreeApply a.toBuddyAlloc (posOf p)).Returns s.mem stores () ∧
      AllocInvariant a virtualSlots ⟨s.mem.apply stores, s.live.erase block⟩ (blocks.erase p) ∧
      TreeFrame a.tree s.mem (s.mem.apply stores) := by
  obtain ⟨at_, notVirtual⟩ := invariant.live block member
  have isTaken := invariant.taken member
  have large := at_.large
  have alignment := a.alignment_pos
  have inside := invariant.inside atEnd member
  generalize named : blockNode a.toBuddyAlloc block = p at at_ notVirtual isTaken
  have found := buddyFreeFindPos_spec invariant.represents isTaken at_.fits at_.sizeClass
    (by rw [← at_.address]; omega)
  rw [← at_.address] at found
  obtain ⟨stores, returns, after, frame⟩ := buddyFreeApply_spec invariant.represents isTaken
  have liveNodup : s.live.Nodup := List.Nodup.of_map _ invariant.distinct
  refine ⟨p, stores, at_, found, returns, ⟨after, ?_, ?_, ?_⟩, frame⟩
  · intro i
    change Function.update blocks.taken p false i = true ↔ _
    simp only [List.mem_map, liveNodup.mem_erase_iff]
    by_cases here : i = p
    · subst here
      rw [Function.update_self, notVirtual]
      simp only [Bool.false_eq_true, false_or, false_iff]
      rintro ⟨other, ⟨different, otherMember⟩, same⟩
      exact different (List.inj_on_of_nodup_map invariant.distinct otherMember member
        (same.trans named.symm))
    · rw [Function.update_of_ne here, invariant.accounted i, List.mem_map]
      refine or_congr_right ⟨?_, ?_⟩
      · rintro ⟨other, otherMember, rfl⟩
        exact ⟨other, ⟨fun same => here (same ▸ named), otherMember⟩, rfl⟩
      · rintro ⟨other, ⟨_, otherMember⟩, rfl⟩
        exact ⟨other, otherMember, rfl⟩
  · intro other otherMember
    exact invariant.live other (List.mem_of_mem_erase otherMember)
  · exact invariant.distinct.sublist (List.erase_sublist.map _)

/-- A free gives the node of the block back. -/
theorem AllocInvariant.free (invariant : AllocInvariant a virtualSlots s blocks)
    (atEnd : CoversFrom virtualSlots (2 ^ (a.tree.order - 1) + a.blocks))
    {block : Nat × Nat} (member : block ∈ s.live) :
    (∃ s' blocks', allocStep a.toBuddyAlloc s (.free block) = some s' ∧
      AllocInvariant a virtualSlots s' blocks') := by
  obtain ⟨p, stores, _, found, returns, after, _⟩ := invariant.release atEnd member
  refine ⟨_, _, ?_, after⟩
  simp only [allocStep, if_pos member, found, returns.run_eq, Option.map_some]

/-- Live blocks have no byte in common. -/
theorem AllocInvariant.pairwise (invariant : AllocInvariant a virtualSlots s blocks) :
    s.live.Pairwise fun x y =>
      Apart x.1 (blockSize a.toBuddyAlloc x.2) y.1 (blockSize a.toBuddyAlloc y.2) := by
  have distinct := List.pairwise_map.mp invariant.distinct
  refine distinct.imp_of_mem fun {x y} xMember yMember different => ?_
  obtain ⟨xAt, _⟩ := invariant.live x xMember
  obtain ⟨yAt, _⟩ := invariant.live y yMember
  have xLarge := xAt.large
  have yLarge := yAt.large
  have alignment := a.alignment_pos
  have xStart := xAt.aligned.1
  have yStart := yAt.aligned.1
  unfold Apart
  by_contra overlap
  -- the later of the two starts is a byte of both
  have xCovers := xAt.covers_iff.mpr
    (show x.1 ≤ a.main + (max x.1 y.1 - a.main) ∧ _ by omega)
  have yCovers := yAt.covers_iff.mpr
    (show y.1 ≤ a.main + (max x.1 y.1 - a.main) ∧ _ by omega)
  exact different (blocks.eq_of_covers (invariant.taken xMember) (invariant.taken yMember)
    xCovers yCovers)

/-- The block of a position that was found is free: inside the arena and apart from all live
ones. -/
theorem AllocInvariant.find (invariant : AllocInvariant a virtualSlots s blocks)
    (atEnd : CoversFrom virtualSlots (2 ^ (a.tree.order - 1) + a.blocks)) {n : Nat}
    (valid : buddyTreeValid a.tree (buddyMallocFindPos a.toBuddyAlloc s.mem n) = true) :
    ∃ p, buddyMallocFindPos a.toBuddyAlloc s.mem n = posOf p ∧
      BlockAt a p (addressForPosition a.toBuddyAlloc (posOf p), n) ∧ blocks.Vacant p ∧
      addressForPosition a.toBuddyAlloc (posOf p) + blockSize a.toBuddyAlloc n ≤
        a.main + a.memorySize ∧
      ∀ block ∈ s.live, Apart (addressForPosition a.toBuddyAlloc (posOf p))
        (blockSize a.toBuddyAlloc n) block.1 (blockSize a.toBuddyAlloc block.2) := by
  rcases buddyMallocFindPos_spec invariant.represents n with
    ⟨invalid, _⟩ | ⟨fits, p, found, node, sizeClass, vacant⟩
  · rw [invalid, invalidPos_not_valid] at valid
    exact absurd valid Bool.false_ne_true
  · have at_ : BlockAt a p (addressForPosition a.toBuddyAlloc (posOf p), n) :=
      ⟨node, fits, rfl, sizeClass⟩
    -- the facts are those of the live blocks after a mark
    obtain ⟨_, _, after, _⟩ := invariant.mark at_ vacant
    exact ⟨p, found, at_, vacant, after.inside atEnd List.mem_cons_self,
      (List.pairwise_cons.mp after.pairwise).1⟩

/-- The node of a place where a block of the size class would fit. -/
theorem blockAt_of_offset {requested offset : Nat} (fits : requested ≤ a.memorySize)
    (multiple : blockSize a.toBuddyAlloc requested ∣ offset)
    (inside : offset + blockSize a.toBuddyAlloc requested ≤ a.memorySize) :
    BlockAt a (2 ^ (depthForSize a.toBuddyAlloc requested - 1) +
      offset / blockSize a.toBuddyAlloc requested) (a.main + offset, requested) := by
  obtain ⟨depthPositive, depthBound, large, _⟩ := a.depthForSize_spec fits
  obtain ⟨index, rfl⟩ := multiple
  have alignment := a.alignment_pos
  have positive : 0 < blockSize a.toBuddyAlloc requested := by
    unfold blockSize
    omega
  have total : 2 ^ (depthForSize a.toBuddyAlloc requested - 1) *
      blockSize a.toBuddyAlloc requested = 2 ^ (a.tree.order - 1 + a.unit) := by
    rw [blockSize, a.sizeForDepth_eq depthPositive depthBound, a.alignment_eq, ← Nat.pow_add,
      ← Nat.pow_add]
    congr 1
    omega
  have inRow : index < 2 ^ (depthForSize a.toBuddyAlloc requested - 1) := by
    have effective := a.memorySize_le_effective
    rw [← total, Nat.mul_comm] at effective
    exact Nat.lt_of_mul_lt_mul_left (lt_of_lt_of_le (by omega) (le_trans inside effective))
  have next : 2 ^ depthForSize a.toBuddyAlloc requested =
      2 ^ (depthForSize a.toBuddyAlloc requested - 1) * 2 := by
    rw [← Nat.pow_succ, Nat.succ_eq_add_one, Nat.sub_add_cancel depthPositive]
  rw [Nat.mul_div_cancel_left _ positive]
  have size : (2 ^ (depthForSize a.toBuddyAlloc requested - 1) + index).size =
      depthForSize a.toBuddyAlloc requested := by
    apply le_antisymm
    · rw [Nat.size_le]
      omega
    · have := Nat.lt_size.mpr
        (Nat.le_add_right (2 ^ (depthForSize a.toBuddyAlloc requested - 1)) index)
      omega
  have node : Node a.tree.order (2 ^ (depthForSize a.toBuddyAlloc requested - 1) + index) := by
    refine ⟨by positivity, ?_⟩
    rw [← Nat.size_le, size]
    exact depthBound
  refine ⟨node, fits, ?_, size⟩
  rw [addressForPosition, buddyTreeIndex_posOf node, size, Nat.add_sub_cancel_left]
  change _ = a.main + sizeForDepth a.toBuddyAlloc (Nat.size _) * index
  rw [size]
  rfl

/-- When no position is found, no block of the size class is entirely free. -/
theorem AllocInvariant.complete (invariant : AllocInvariant a virtualSlots s blocks)
    (atEnd : CoversFrom virtualSlots (2 ^ (a.tree.order - 1) + a.blocks)) {requested : Nat}
    (invalid : buddyTreeValid a.tree (buddyMallocFindPos a.toBuddyAlloc s.mem requested) = false)
    {offset : Nat} (large : requested ≤ blockSize a.toBuddyAlloc requested)
    (multiple : blockSize a.toBuddyAlloc requested ∣ offset)
    (inside : offset + blockSize a.toBuddyAlloc requested ≤ a.memorySize) :
    ∃ block ∈ s.live, ¬ Apart block.1 (blockSize a.toBuddyAlloc block.2) (a.main + offset)
      (blockSize a.toBuddyAlloc requested) := by
  have fits : requested ≤ a.memorySize := by omega
  have at_ := blockAt_of_offset fits multiple inside
  by_contra allApart
  refine absurd ?_ (?_ : ¬ blocks.Vacant
    (2 ^ (depthForSize a.toBuddyAlloc requested - 1) + offset / blockSize a.toBuddyAlloc requested))
  · refine BlockSet.vacant_of_not_covered at_.node ?_
    rintro leaf covers ⟨i, isTaken, covering⟩
    obtain ⟨low, high⟩ := at_.node.leaf_bounds covers
    obtain ⟨place, rfl⟩ := exists_leafOf low
    have inBlock := at_.covers_iff.mp covers
    dsimp only at inBlock
    rcases (invariant.accounted i).mp isTaken with isVirtual | isLive
    · have := leafOf_virtual.mp ((atEnd _ low high).mp ⟨i, isVirtual, covering⟩)
      omega
    · obtain ⟨block, member, rfl⟩ := List.mem_map.mp isLive
      have inLive := (invariant.live block member).1.covers_iff.mp covering
      refine allApart ⟨block, member, ?_⟩
      unfold Apart
      omega
  · rcases buddyMallocFindPos_spec invariant.represents requested with
      ⟨_, none⟩ | ⟨_, p, found, node, _, _⟩
    · exact none fits _ at_.node at_.sizeClass
    · rw [found, posOf_valid.mpr node] at invalid
      exact absurd invalid (by decide)

end Steps

/-- The virtual slots of a fresh arena. -/
theorem setUp_spec (a : Arena) (prior : Mem) :
    ∃ virtualSlots : BlockSet a.tree.order,
      CoversFrom virtualSlots (2 ^ (a.tree.order - 1) + a.blocks) ∧
      Represents a.tree ((setUp a.toBuddyAlloc).final prior) virtualSlots.taken := by
  obtain ⟨stores, virtualSlots, returns, represents, _, atEnd⟩ :=
    buddyToggleVirtualSlots_spec (buddyTreeInit_spec a.tree prior)
  refine ⟨virtualSlots, atEnd, ?_⟩
  have both : (setUp a.toBuddyAlloc).Returns prior (clearedBits a.tree :: stores) () := by
    unfold setUp buddyTreeInit
    exact Shm.Returns.put_bind returns
  rw [both.final_eq, Mem.apply_cons]
  exact represents

/-- A step keeps the invariant, and the blocks it does not free stay live. -/
theorem AllocInvariant.step {a : Arena} {virtualSlots blocks : BlockSet a.tree.order}
    (atEnd : CoversFrom virtualSlots (2 ^ (a.tree.order - 1) + a.blocks)) {s next : AllocState}
    {action : AllocAction} (invariant : AllocInvariant a virtualSlots s blocks)
    (transition : allocStep a.toBuddyAlloc s action = some next) :
    (∃ blocks', AllocInvariant a virtualSlots next blocks') ∧
      ∀ block ∈ s.live, action ≠ .free block → block ∈ next.live := by
  cases action with
  | malloc requested =>
      obtain ⟨s', blocks', stepped, after⟩ := invariant.malloc requested
      have same := Option.some.inj (stepped.symm.trans transition)
      refine ⟨⟨blocks', same ▸ after⟩, fun block member _ => ?_⟩
      rw [allocStep] at transition
      dsimp only at transition
      split at transition
      · obtain ⟨result, _, rfl⟩ := Option.map_eq_some_iff.mp transition
        exact List.mem_cons_of_mem _ member
      · rw [← Option.some.inj transition]
        exact member
  | free freed =>
      by_cases isLive : freed ∈ s.live
      · obtain ⟨s', blocks', stepped, after⟩ := invariant.free atEnd isLive
        have same := Option.some.inj (stepped.symm.trans transition)
        refine ⟨⟨blocks', same ▸ after⟩, fun block member kept => ?_⟩
        rw [allocStep, if_pos isLive] at transition
        obtain ⟨result, _, rfl⟩ := Option.map_eq_some_iff.mp transition
        have different : block ≠ freed := fun here => kept (by rw [here])
        exact (List.mem_erase_of_ne different).mpr member
      · rw [allocStep, if_neg isLive] at transition
        exact absurd transition (by simp)

theorem allocInvariant_initial {a : Arena} {prior : Mem} {virtualSlots : BlockSet a.tree.order}
    (fresh : Represents a.tree ((setUp a.toBuddyAlloc).final prior) virtualSlots.taken) :
    AllocInvariant a virtualSlots (allocMachine a.toBuddyAlloc prior).initial virtualSlots := by
  refine ⟨?_, fun i => ?_, fun block member => ?_, ?_⟩
  · rw [allocMachine_mem]
    exact fresh
  · rw [allocMachine_live, List.map_nil]
    simp
  · rw [allocMachine_live] at member
    simp at member
  · rw [allocMachine_live]
    exact List.nodup_nil

theorem allocInvariant_of_reachable {a : Arena} {prior : Mem}
    {virtualSlots : BlockSet a.tree.order}
    (atEnd : CoversFrom virtualSlots (2 ^ (a.tree.order - 1) + a.blocks))
    (fresh : Represents a.tree ((setUp a.toBuddyAlloc).final prior) virtualSlots.taken)
    {s : AllocState}
    (reached : (allocMachine a.toBuddyAlloc prior).Reachable (fun _ _ _ => True) s) :
    ∃ blocks, AllocInvariant a virtualSlots s blocks :=
  @Machine.Reachable.invariant _ _ _ _ (fun s => ∃ blocks, AllocInvariant a virtualSlots s blocks)
    ⟨virtualSlots, allocInvariant_initial fresh⟩
    (fun ⟨_, invariant⟩ transition _ => (invariant.step atEnd transition).1) _ reached

/-- In every run of the split interface the live blocks are apart, aligned, large
enough and inside the arena; a request is refused only when no block of its size
class is entirely free; and every request, and every free of a live block, completes. -/
theorem split_interface_allocates {base main memorySize alignment : Nat} {b : BuddyAlloc}
    (accepted : metashmemInitAlignment base main memorySize alignment = some b)
    (bound : memorySize ≤ 2 ^ 62) (prior : Mem) {s : AllocState}
    (reached : (allocMachine b prior).Reachable (fun _ _ _ => True) s) :
    (s.live.Pairwise fun x y => Apart x.1 (blockSize b x.2) y.1 (blockSize b y.2)) ∧
    (∀ block ∈ s.live, b.main ≤ block.1 ∧ b.alignment ∣ block.1 - b.main ∧
      max block.2 b.alignment ≤ blockSize b block.2 ∧
      block.1 + blockSize b block.2 ≤ b.main + b.memorySize) ∧
    (∀ requested, buddyTreeValid b.tree (buddyMallocFindPos b s.mem requested) = false →
      ∀ offset, requested ≤ blockSize b requested → blockSize b requested ∣ offset →
        offset + blockSize b requested ≤ b.memorySize →
        ∃ block ∈ s.live, ¬ Apart block.1 (blockSize b block.2) (b.main + offset)
          (blockSize b requested)) ∧
    (∀ requested, (allocStep b s (.malloc requested)).isSome) ∧
    ∀ block ∈ s.live, (allocStep b s (.free block)).isSome := by
  obtain ⟨a, rfl⟩ := exists_arena accepted bound
  obtain ⟨virtualSlots, atEnd, fresh⟩ := setUp_spec a prior
  obtain ⟨blocks, invariant⟩ := allocInvariant_of_reachable atEnd fresh reached
  refine ⟨invariant.pairwise, fun block member => ?_, fun requested invalid offset large multiple
    inside => invariant.complete atEnd invalid large multiple inside, fun requested => ?_,
    fun block member => ?_⟩
  · obtain ⟨at_, _⟩ := invariant.live block member
    exact ⟨at_.aligned.1, at_.aligned.2, at_.large, invariant.inside atEnd member⟩
  · obtain ⟨_, _, stepped, _⟩ := invariant.malloc requested
    rw [stepped]
    rfl
  · obtain ⟨_, _, stepped, _⟩ := invariant.free atEnd member
    rw [stepped]
    rfl

/-- An arena of three blocks: the last block of its tree is a virtual slot. -/
def threeBlocks : BuddyAlloc where
  main := 4096
  memorySize := 12288
  alignment := 4096
  tree := { order := 3, bits := 65536 + 656, order_le := by decide }

theorem threeBlocks_accepted :
    metashmemInitAlignment 65536 4096 13000 4096 = some threeBlocks := rfl

/-- Runs of clients from a state on. -/
def allocMachineFrom (b : BuddyAlloc) (s : AllocState) : Machine AllocState AllocAction where
  initial := s
  step := allocStep b

/-- A position that was found and applied is found again from its address and the requested
size, whatever else is allocated and freed meanwhile. -/
theorem free_finds_position {base main memorySize alignment : Nat} {b : BuddyAlloc}
    (accepted : metashmemInitAlignment base main memorySize alignment = some b)
    (bound : memorySize ≤ 2 ^ 62) (prior : Mem) {s applied later : AllocState}
    (reached : (allocMachine b prior).Reachable (fun _ _ _ => True) s) {n : Nat}
    {p : BuddyTreePos} (found : buddyMallocFindPos b s.mem n = p)
    (valid : buddyTreeValid b.tree p = true) (marked : allocStep b s (.malloc n) = some applied)
    (kept : (allocMachineFrom b applied).Reachable
      (fun _ action _ => action ≠ .free (addressForPosition b p, n)) later) :
    buddyFreeFindPos b later.mem (addressForPosition b p) n = p := by
  obtain ⟨a, rfl⟩ := exists_arena accepted bound
  obtain ⟨virtualSlots, atEnd, fresh⟩ := setUp_spec a prior
  obtain ⟨blocks, invariant⟩ := allocInvariant_of_reachable atEnd fresh reached
  rcases buddyMallocFindPos_spec invariant.represents n with
    ⟨invalid, _⟩ | ⟨fits, i, isNode, node, sizeClass, _⟩
  · rw [← found, invalid, invalidPos_not_valid] at valid
    exact absurd valid Bool.false_ne_true
  · obtain rfl : posOf i = p := isNode.symm.trans found
    have at_ : BlockAt a i (addressForPosition a.toBuddyAlloc (posOf i), n) :=
      ⟨node, fits, rfl, sizeClass⟩
    have first : (addressForPosition a.toBuddyAlloc (posOf i), n) ∈ applied.live := by
      rw [allocStep] at marked
      dsimp only at marked
      rw [found, if_pos valid] at marked
      obtain ⟨⟨mem, addr⟩, returned, rfl⟩ := Option.map_eq_some_iff.mp marked
      obtain ⟨stores, returns, _⟩ := buddyMallocApply_spec invariant.represents node ‹_›
      rw [returns.run_eq] at returned
      obtain ⟨_, rfl⟩ := Prod.mk.inj (Option.some.inj returned)
      exact List.mem_cons_self
    -- the block stays live as long as it is not freed
    have stays : (∃ blocks, AllocInvariant a virtualSlots later blocks) ∧
        (addressForPosition a.toBuddyAlloc (posOf i), n) ∈ later.live :=
      @Machine.Reachable.invariant _ _ _ _ (fun s => (∃ blocks, AllocInvariant a virtualSlots s
          blocks) ∧ (addressForPosition a.toBuddyAlloc (posOf i), n) ∈ s.live)
        ⟨(invariant.step atEnd marked).1, first⟩
        (fun ⟨⟨_, before⟩, member⟩ transition other =>
          ⟨(before.step atEnd transition).1, (before.step atEnd transition).2 _ member other⟩)
        _ kept
    obtain ⟨⟨_, after⟩, member⟩ := stays
    obtain ⟨j, _, place, again, _⟩ := after.release atEnd member
    rw [again, ← place.blockNode_eq, at_.blockNode_eq]

theorem split_interface_allocates_threeBlocks :
    metashmemInitAlignment 65536 4096 13000 4096 = some threeBlocks ∧
    ((allocMachine threeBlocks fun _ => 255).final [.malloc 5000, .malloc 0]).live.Pairwise
      fun x y => Apart x.1 (blockSize threeBlocks x.2) y.1 (blockSize threeBlocks y.2) :=
  ⟨threeBlocks_accepted, (split_interface_allocates threeBlocks_accepted (by decide) (fun _ => 255)
    (Machine.reachable_final (fun _ _ _ => true) (fun _ _ _ _ => trivial)
      [.malloc 5000, .malloc 0] (by decide +kernel))).1⟩

/-- Two blocks are handed out and the larger one is taken back. -/
def firstCalls : List AllocAction := [.malloc 5000, .malloc 0, .free (4096, 5000)]

/-- A third one is handed out in its place, and later the other one is freed. -/
theorem free_finds_position_threeBlocks :
    ∃ applied, allocStep threeBlocks ((allocMachine threeBlocks fun _ => 255).final firstCalls)
        (.malloc 100) = some applied ∧
      buddyFreeFindPos threeBlocks ((allocMachineFrom threeBlocks applied).final
        [.malloc 4000, .free (12288, 0)]).mem 4096 100 = ⟨4, 3⟩ := by
  let others : AllocState → AllocAction → AllocState → Bool
    | _, .malloc _, _ => true
    | _, .free block, _ => block != (4096, 100)
  have ran : ((allocStep threeBlocks ((allocMachine threeBlocks fun _ => 255).final firstCalls)
      (.malloc 100)).map fun applied =>
        (allocMachineFrom threeBlocks applied).runMeets others applied
        [.malloc 4000, .free (12288, 0)]) = some true := by decide +kernel
  obtain ⟨applied, marked, meets⟩ := Option.map_eq_some_iff.mp ran
  have found : buddyMallocFindPos threeBlocks
      ((allocMachine threeBlocks fun _ => 255).final firstCalls).mem 100 = ⟨4, 3⟩ := by
    decide +kernel
  refine ⟨applied, marked, free_finds_position threeBlocks_accepted (by decide) _
    (Machine.reachable_final (fun _ _ _ => true) (fun _ _ _ _ => trivial) firstCalls
      (by decide +kernel)) found (by decide) marked
    (Machine.reachable_final others (fun _ action _ other isFree => ?_) _ meets)⟩
  rw [isFree] at other
  exact absurd (show ((4096, 100) != ((4096, 100) : Nat × Nat)) = true from other) (by decide)

end Lupin.Buddy
