import Lupin.Buddy.TreeSpec

/-!
# The arena of the buddy allocator

The functions over `struct buddy`: size classes, addresses of positions, the split
`malloc` and `free`, and the set-up that marks the virtual slots of an arena whose
size is not a power of two.
-/

namespace Lupin.Buddy

open Lupin.Memory Lupin.HeapIndex Lupin.LevelTree

/-- `struct buddy`. `main` is what `buddy_main` returns in either mode. -/
structure BuddyAlloc where
  main : Nat
  memorySize : Nat
  alignment : Nat
  tree : BuddyTree

/-- `buddy_effective_memory_size`. -/
def buddyEffectiveMemorySize (b : BuddyAlloc) : Nat := ceilingPowerOfTwo b.memorySize

/-- The loop of `depth_for_size`; a 64 bit size is halved at most 64 times. -/
def depthForSizeLoop (requestedSize : Nat) : (rounds depth effectiveMemorySize : Nat) → Nat
  | 0, depth, _ => depth
  | rounds + 1, depth, effectiveMemorySize =>
      if effectiveMemorySize / requestedSize / 2 ≠ 0 then
        depthForSizeLoop requestedSize rounds (depth + 1) (effectiveMemorySize / 2)
      else depth

/-- `depth_for_size`. -/
def depthForSize (b : BuddyAlloc) (requestedSize : Nat) : Nat :=
  let requestedSize := if requestedSize < b.alignment then b.alignment else requestedSize
  depthForSizeLoop requestedSize 64 1 (buddyEffectiveMemorySize b)

/-- `size_for_depth`. -/
def sizeForDepth (b : BuddyAlloc) (depth : Nat) : Nat :=
  ceilingPowerOfTwo b.memorySize / 2 ^ (depth - 1)

/-- `address_for_position`. -/
def addressForPosition (b : BuddyAlloc) (pos : BuddyTreePos) : Nat :=
  b.main + sizeForDepth b pos.depth * buddyTreeIndex pos

/-- `deepest_position_for_offset`. -/
def deepestPositionForOffset (b : BuddyAlloc) (offset : Nat) : BuddyTreePos :=
  let pos := buddyTreeLeftmostChild b.tree
  { pos with index := pos.index + offset / b.alignment }

/-- The loop of `position_for_address`; it leaves the tree after `depth` parents. -/
def positionLoop (t : BuddyTree) (m : Mem) : (rounds : Nat) → BuddyTreePos → BuddyTreePos
  | 0, _ => invalidPos
  | rounds + 1, pos =>
      if buddyTreeStatus t m pos ≠ 0 then pos
      else
        let pos := buddyTreeParent pos
        if buddyTreeValid t pos then positionLoop t m rounds pos else invalidPos

/-- `position_for_address`. -/
def positionForAddress (b : BuddyAlloc) (m : Mem) (addr : Nat) : BuddyTreePos :=
  let offset := addr - b.main
  if offset % b.alignment ≠ 0 then invalidPos
  else
    let deepest := deepestPositionForOffset b offset
    let pos := positionLoop b.tree m deepest.depth deepest
    if buddyTreeValid b.tree pos = false then invalidPos
    else if addressForPosition b pos ≠ addr then invalidPos
    else pos

/-- `buddy_malloc_find_pos`. -/
def buddyMallocFindPos (b : BuddyAlloc) (m : Mem) (requestedSize : Nat) : BuddyTreePos :=
  let requestedSize := if requestedSize = 0 then 1 else requestedSize
  if requestedSize > b.memorySize then invalidPos
  else
    let pos := buddyTreeFindFree b.tree m (depthForSize b requestedSize)
    if buddyTreeValid b.tree pos then pos else invalidPos

/-- `buddy_malloc_apply`. -/
def buddyMallocApply (b : BuddyAlloc) (pos : BuddyTreePos) : Shm Nat := do
  buddyTreeMark b.tree pos
  pure (addressForPosition b pos)

/-- `buddy_free_find_pos`. -/
def buddyFreeFindPos (b : BuddyAlloc) (m : Mem) (ptr requestedSize : Nat) : BuddyTreePos :=
  if ptr = 0 then invalidPos
  else if ptr < b.main ∨ ptr ≥ b.main + b.memorySize then invalidPos
  else
    let pos := positionForAddress b m ptr
    if buddyTreeValid b.tree pos = false then invalidPos
    else
      let allocatedSizeForDepth := sizeForDepth b pos.depth
      let requestedSize := if requestedSize < b.alignment then b.alignment else requestedSize
      if requestedSize > allocatedSizeForDepth then invalidPos
      else if requestedSize ≤ allocatedSizeForDepth / 2 then invalidPos
      else pos

/-- `buddy_free_apply`. -/
def buddyFreeApply (b : BuddyAlloc) (pos : BuddyTreePos) : Shm Unit := buddyTreeRelease b.tree pos

/-- The loop of `buddy_toggle_virtual_slots`; it goes down a level every round. -/
def toggleVirtualSlotsLoop (b : BuddyAlloc) (toggle : BuddyTree → BuddyTreePos → Shm Unit) :
    (rounds delta : Nat) → BuddyTreePos → Shm Unit
  | 0, _, _ => Shm.stop
  | rounds + 1, delta, pos =>
      if delta = 0 then pure ()
      else
        let currentPosSize := sizeForDepth b pos.depth
        if delta = currentPosSize then toggle b.tree pos
        else if delta ≤ currentPosSize / 2 then
          toggleVirtualSlotsLoop b toggle rounds delta (buddyTreeRightChild pos)
        else do
          toggle b.tree (buddyTreeRightChild pos)
          toggleVirtualSlotsLoop b toggle rounds (delta - currentPosSize / 2)
            (buddyTreeLeftChild pos)

/-- `buddy_toggle_virtual_slots`. -/
def buddyToggleVirtualSlots (b : BuddyAlloc) (state : Bool) : Shm Unit :=
  let effectiveMemorySize := buddyEffectiveMemorySize b
  if effectiveMemorySize = b.memorySize then pure ()
  else
    toggleVirtualSlotsLoop b (if state then buddyTreeMark else buddyTreeRelease) b.tree.order
      (effectiveMemorySize - b.memorySize) (buddyTreeRightChild buddyTreeRoot)

/-- The part of the `memset` of `buddy_tree_init` that clears the bits. -/
def clearedBits (t : BuddyTree) : Store :=
  ⟨t.bits, List.replicate (bitsetSizeof (sizeForOrder t.order 0)) 0⟩

/-- `buddy_tree_init`. -/
def buddyTreeInit (t : BuddyTree) : Shm Unit := Shm.put (clearedBits t)

/-! ## Arenas -/

/-- A `struct buddy` as `metashmem_init_alignment` sets it up: the alignment is a
power of two, the memory is a number of blocks of that size, and the order of the
tree is the one for this number. -/
structure Arena extends BuddyAlloc where
  unit : Nat
  blocks : Nat
  alignment_eq : alignment = 2 ^ unit
  memorySize_eq : memorySize = blocks * 2 ^ unit
  blocks_pos : 0 < blocks
  memorySize_le : memorySize ≤ 2 ^ 62
  order_eq : tree.order = (blocks - 1).size + 1
  main_pos : 0 < main

namespace Arena

variable (a : Arena)

theorem alignment_pos : 0 < a.alignment := by
  rw [a.alignment_eq]
  positivity

theorem memorySize_pos : 0 < a.memorySize := by
  rw [a.memorySize_eq]
  exact Nat.mul_pos a.blocks_pos (by positivity)

theorem order_pos : 0 < a.tree.order := by
  rw [a.order_eq]
  omega

theorem root_node : Node a.tree.order 1 :=
  ⟨by omega, Nat.one_lt_two_pow (by have := a.order_pos; omega)⟩

theorem blocks_le : a.blocks ≤ 2 ^ (a.tree.order - 1) := by
  have bound := Nat.lt_size_self (a.blocks - 1)
  have positive := a.blocks_pos
  rw [a.order_eq, Nat.add_sub_cancel]
  omega

/-- More than half of the blocks of the tree are there. -/
theorem half_lt_blocks (several : 1 < a.tree.order) : 2 ^ (a.tree.order - 2) < a.blocks := by
  have order := a.order_eq
  have low : 2 ^ ((a.blocks - 1).size - 1) ≤ a.blocks - 1 := Nat.lt_size.mp (by omega)
  have positive := a.blocks_pos
  rw [show a.tree.order - 2 = (a.blocks - 1).size - 1 by omega]
  omega

/-- The bits of an offset: of the block, and within it. -/
theorem size_pred_memorySize : (a.memorySize - 1).size = a.tree.order - 1 + a.unit := by
  have positive := a.memorySize_pos
  have blocksPositive := a.blocks_pos
  have unitPositive : 0 < 2 ^ a.unit := by positivity
  have quotient : (a.memorySize - 1) / 2 ^ a.unit = a.blocks - 1 := by
    obtain ⟨rest, blocks⟩ : ∃ rest, a.blocks = rest + 1 := ⟨a.blocks - 1, by omega⟩
    rw [a.memorySize_eq, blocks, Nat.div_eq_iff unitPositive, Nat.add_sub_cancel, Nat.add_mul,
      Nat.one_mul]
    omega
  have sizes := size_div_pow (a.memorySize - 1) a.unit
  have order := a.order_eq
  rw [quotient] at sizes
  -- the size is at least the unit, also for a single block
  have low : a.unit ≤ (a.memorySize - 1).size := by
    by_contra small
    have less := Nat.size_le.mp (le_refl (a.memorySize - 1).size)
    have power : 2 ^ (a.memorySize - 1).size < 2 ^ a.unit :=
      Nat.pow_lt_pow_right (by omega) (by omega)
    have large : 2 ^ a.unit ≤ a.memorySize := by
      rw [a.memorySize_eq]
      exact Nat.le_mul_of_pos_left _ blocksPositive
    omega
  omega

theorem effective_eq : ceilingPowerOfTwo a.memorySize = 2 ^ (a.tree.order - 1 + a.unit) := by
  rw [ceilingPowerOfTwo_eq a.memorySize_pos (le_trans a.memorySize_le (by decide)),
    a.size_pred_memorySize]

theorem effective_bits_le : a.tree.order - 1 + a.unit ≤ 62 := by
  have bound := a.memorySize_le
  have positive := a.memorySize_pos
  rw [← a.size_pred_memorySize, Nat.size_le]
  omega

theorem memorySize_le_effective : a.memorySize ≤ 2 ^ (a.tree.order - 1 + a.unit) := by
  rw [a.memorySize_eq, Nat.pow_add]
  exact Nat.mul_le_mul_right _ a.blocks_le

theorem alignment_le_memorySize : a.alignment ≤ a.memorySize := by
  rw [a.memorySize_eq, a.alignment_eq]
  exact Nat.le_mul_of_pos_left _ a.blocks_pos

/-- The block size at a depth. -/
theorem sizeForDepth_eq {depth : Nat} (positive : 1 ≤ depth) (bound : depth ≤ a.tree.order) :
    sizeForDepth a.toBuddyAlloc depth = 2 ^ (a.tree.order - depth) * a.alignment := by
  unfold sizeForDepth
  rw [a.effective_eq, Nat.pow_div (by omega) (by omega), a.alignment_eq, ← Nat.pow_add]
  congr 1
  omega

/-- The block size of a node. -/
theorem sizeForDepth_node {p : Nat} (node : Node a.tree.order p) :
    sizeForDepth a.toBuddyAlloc p.size = 2 ^ (height a.tree.order p - 1) * a.alignment := by
  rw [a.sizeForDepth_eq node.size_pos node.size_le]
  congr 2
  unfold height
  omega

/-- The address of a node's block. -/
theorem addressForPosition_posOf {p : Nat} (node : Node a.tree.order p) :
    addressForPosition a.toBuddyAlloc (posOf p) =
      a.main + (p * 2 ^ (height a.tree.order p - 1) - 2 ^ (a.tree.order - 1)) * a.alignment := by
  have low := node.low
  have sizePositive := node.size_pos
  have sizeBound := node.size_le
  have lowest : 2 ^ (a.tree.order - 1) = 2 ^ (p.size - 1) * 2 ^ (height a.tree.order p - 1) := by
    rw [← Nat.pow_add]
    congr 1
    unfold height
    omega
  unfold addressForPosition
  rw [buddyTreeIndex_posOf node]
  change a.main + sizeForDepth a.toBuddyAlloc p.size * _ = _
  rw [a.sizeForDepth_node node, lowest, ← Nat.sub_mul, Nat.mul_comm _ (p - _), ← Nat.mul_assoc]

/-- The leaf over an offset into the arena. -/
def leafOf (offset : Nat) : Nat := 2 ^ (a.tree.order - 1) + offset / a.alignment

/-- A node covers the leaves of the bytes of its block. -/
theorem covers_leafOf {p offset : Nat} (node : Node a.tree.order p) :
    Covers a.tree.order p (a.leafOf offset) ↔
      addressForPosition a.toBuddyAlloc (posOf p) ≤ a.main + offset ∧
      a.main + offset <
        addressForPosition a.toBuddyAlloc (posOf p) + sizeForDepth a.toBuddyAlloc p.size := by
  have lowest := (node.leaf_bounds (covers_first a.tree.order p)).1
  have alignment := a.alignment_pos
  obtain ⟨start, first⟩ : ∃ start, p * 2 ^ (height a.tree.order p - 1) =
      2 ^ (a.tree.order - 1) + start := ⟨_, (Nat.add_sub_cancel' lowest).symm⟩
  have fromStart : start ≤ offset / a.alignment ↔ start * a.alignment ≤ offset :=
    Nat.le_div_iff_mul_le alignment
  have toEnd : offset / a.alignment < start + 2 ^ (height a.tree.order p - 1) ↔
      offset < (start + 2 ^ (height a.tree.order p - 1)) * a.alignment :=
    Nat.div_lt_iff_lt_mul alignment
  rw [covers_iff, a.addressForPosition_posOf node, a.sizeForDepth_node node, Nat.add_mul, first,
    Nat.one_mul, Nat.add_sub_cancel_left]
  rw [Nat.add_mul] at toEnd
  unfold leafOf
  omega

/-! ### Size classes -/

end Arena

/-- The loop ends at the smallest power of two that holds the request. -/
theorem depthForSizeLoop_spec {requested exponent rounds : Nat} (depth : Nat)
    (positive : 0 < requested) (fits : requested ≤ 2 ^ exponent) (enough : exponent < rounds) :
    ∃ k, k ≤ exponent ∧ depthForSizeLoop requested rounds depth (2 ^ exponent) = depth + k ∧
      requested ≤ 2 ^ (exponent - k) ∧ 2 ^ (exponent - k) < 2 * requested := by
  induction rounds generalizing depth exponent with
  | zero => omega
  | succ rounds inductionHypothesis =>
      by_cases large : 2 * requested ≤ 2 ^ exponent
      · -- one level down: the half still holds the request
        have again : 2 ^ exponent / requested / 2 ≠ 0 := by
          have two : 2 ≤ 2 ^ exponent / requested := (Nat.le_div_iff_mul_le positive).mpr large
          omega
        obtain ⟨half, rfl⟩ : ∃ half, exponent = half + 1 := by
          cases exponent with
          | zero =>
              simp only [Nat.pow_zero] at large
              omega
          | succ half => exact ⟨half, rfl⟩
        rw [Nat.pow_succ] at large again
        obtain ⟨k, bound, result, holds, tight⟩ :=
          @inductionHypothesis half (depth + 1) (by omega) (by omega)
        refine ⟨k + 1, by omega, ?_, ?_, ?_⟩
        · rw [depthForSizeLoop, Nat.pow_succ, if_pos again, Nat.mul_div_cancel _ (by omega), result]
          omega
        · rw [Nat.add_sub_add_right]
          exact holds
        · rw [Nat.add_sub_add_right]
          exact tight
      · have ended : 2 ^ exponent / requested / 2 = 0 :=
          Nat.div_eq_of_lt ((Nat.div_lt_iff_lt_mul positive).mpr (by omega))
        refine ⟨0, by omega, ?_, by simpa using fits, ?_⟩
        · rw [depthForSizeLoop, if_neg (not_not.mpr ended), Nat.add_zero]
        · rw [Nat.sub_zero]
          omega

namespace Arena

variable (a : Arena)

/-- The size class of a request: the tightest block that holds it. -/
theorem depthForSize_spec {requested : Nat} (fits : requested ≤ a.memorySize) :
    1 ≤ depthForSize a.toBuddyAlloc requested ∧
    depthForSize a.toBuddyAlloc requested ≤ a.tree.order ∧
    max requested a.alignment ≤
      sizeForDepth a.toBuddyAlloc (depthForSize a.toBuddyAlloc requested) ∧
    sizeForDepth a.toBuddyAlloc (depthForSize a.toBuddyAlloc requested) <
      2 * max requested a.alignment := by
  have clamped : (if requested < a.alignment then a.alignment else requested) =
      max requested a.alignment := by
    split <;> omega
  have alignment := a.alignment_pos
  have effective := a.memorySize_le_effective
  have smallest := a.alignment_le_memorySize
  have orderPositive := a.order_pos
  have bits := a.effective_bits_le
  obtain ⟨k, bound, result, holds, tight⟩ := depthForSizeLoop_spec 1
    (by omega : 0 < max requested a.alignment)
    (by omega : _ ≤ 2 ^ (a.tree.order - 1 + a.unit)) (by omega : _ < 64)
  have depth : depthForSize a.toBuddyAlloc requested = 1 + k := by
    unfold depthForSize buddyEffectiveMemorySize
    simp only [clamped, a.effective_eq]
    exact result
  have shallow : k ≤ a.tree.order - 1 := by
    have unit : 2 ^ a.unit ≤ 2 ^ (a.tree.order - 1 + a.unit - k) := by
      rw [← a.alignment_eq]
      omega
    have := (Nat.pow_le_pow_iff_right (by omega)).mp unit
    omega
  have size : sizeForDepth a.toBuddyAlloc (1 + k) = 2 ^ (a.tree.order - 1 + a.unit - k) := by
    rw [a.sizeForDepth_eq (by omega) (by omega), a.alignment_eq, ← Nat.pow_add]
    congr 1
    omega
  rw [depth, size]
  exact ⟨by omega, by omega, holds, tight⟩

theorem depthForSize_zero : depthForSize a.toBuddyAlloc 1 = depthForSize a.toBuddyAlloc 0 := by
  have alignment := a.alignment_pos
  have clamped : (if 1 < a.alignment then a.alignment else 1) =
      if 0 < a.alignment then a.alignment else 0 := by
    rw [if_pos alignment]
    split <;> omega
  unfold depthForSize
  simp only [clamped]

end Arena

/-! ## Finding a position for a request -/

section Malloc

variable {a : Arena} {m : Mem} {s : BlockSet a.tree.order}

/-- `buddy_malloc_find_pos` finds a vacant node of the size class, or there is none. -/
theorem buddyMallocFindPos_spec (represents : Represents a.tree m s.taken) (requested : Nat) :
    (buddyMallocFindPos a.toBuddyAlloc m requested = invalidPos ∧
      (requested ≤ a.memorySize → ∀ p, Node a.tree.order p →
        p.size = depthForSize a.toBuddyAlloc requested → ¬ s.Vacant p)) ∨
    (requested ≤ a.memorySize ∧ ∃ p, buddyMallocFindPos a.toBuddyAlloc m requested = posOf p ∧
      Node a.tree.order p ∧ p.size = depthForSize a.toBuddyAlloc requested ∧ s.Vacant p) := by
  have positive := a.memorySize_pos
  have sameDepth : depthForSize a.toBuddyAlloc (if requested = 0 then 1 else requested) =
      depthForSize a.toBuddyAlloc requested := by
    split
    · rename_i zero
      rw [zero, a.depthForSize_zero]
    · rfl
  unfold buddyMallocFindPos
  simp only [sameDepth]
  by_cases tooLarge : requested > a.memorySize
  · refine .inl ⟨if_pos ?_, fun fits => by omega⟩
    split <;> omega
  · have fits : ¬ (if requested = 0 then 1 else requested) > a.memorySize := by
      split <;> omega
    obtain ⟨depthPositive, depthBound, _, _⟩ := a.depthForSize_spec (by omega : requested ≤ _)
    simp only [if_neg fits]
    rcases buddyTreeFindFree_spec represents depthPositive depthBound with
      ⟨invalid, busy⟩ | ⟨p, found, node, atDepth, empty, openPath⟩
    · refine .inl ⟨?_, fun _ p node atDepth vacant => ?_⟩
      · rw [invalid]
        rfl
      · exact not_free_of_level_root busy node atDepth (fun _ above => vacant.open_path above)
          (vacant.free node _)
    · refine .inr ⟨by omega, p, ?_, node, atDepth,
        BlockSet.vacant_of_free node (level_eq_zero_iff.mp empty) openPath⟩
      rw [found, if_pos (posOf_valid.mpr node)]

theorem buddyMallocFindPos_congr {b : BuddyAlloc} {m' : Mem}
    (same : ∀ x, b.tree.bits ≤ x → m' x = m x) (requested : Nat) :
    buddyMallocFindPos b m' requested = buddyMallocFindPos b m requested := by
  have found := funext (buddyTreeFindFree_congr (t := b.tree) same)
  rw [buddyMallocFindPos, buddyMallocFindPos, found]

/-- `buddy_malloc_apply` takes a vacant node. -/
theorem buddyMallocApply_spec (represents : Represents a.tree m s.taken) {p : Nat}
    (node : Node a.tree.order p) (vacant : s.Vacant p) :
    ∃ stores, (buddyMallocApply a.toBuddyAlloc (posOf p)).Returns m stores
        (addressForPosition a.toBuddyAlloc (posOf p)) ∧
      Represents a.tree (m.apply stores) (s.insert p node vacant).taken ∧
      TreeFrame a.tree m (m.apply stores) := by
  obtain ⟨stores, returns, after, frame⟩ :=
    buddyTreeMark_spec represents node fun _ above => vacant.open_path above
  refine ⟨stores ++ [], Shm.Returns.bind returns (Shm.Returns.pure _ _), ?_, ?_⟩
  · rw [List.append_nil]
    exact after
  · rw [List.append_nil]
    exact frame

/-- Marking a node returns and stores to the tree, whatever is taken. -/
theorem buddyMallocApply_returns {b : BuddyAlloc} {p : Nat} (node : Node b.tree.order p) (m : Mem) :
    ∃ stores, (buddyMallocApply b (posOf p)).Returns m stores (addressForPosition b (posOf p)) ∧
      ∀ t ∈ stores, b.tree.bits ≤ t.addr := by
  obtain ⟨stores, _, returns⟩ := buddyTreeMark_total node m
  have emits := buddyTreeMark_emits (t := b.tree) (posOf p) m
  rw [returns.stores_eq] at emits
  refine ⟨stores ++ [], returns.bind (Shm.Returns.pure _ _), ?_⟩
  rwa [List.append_nil]

end Malloc

/-! ## Finding the position of a block -/

section Free

variable {a : Arena} {m : Mem} {s : BlockSet a.tree.order} {p : Nat}

/-- The climb from below a taken node stops at it. -/
theorem positionLoop_spec (represents : Represents a.tree m s.taken) (isTaken : s.taken p = true)
    {j n rounds : Nat} (node : Node a.tree.order j) (under : j / 2 ^ n = p) (enough : n < rounds) :
    positionLoop a.tree m rounds (posOf j) = posOf p := by
  induction n generalizing j rounds with
  | zero =>
      obtain ⟨rounds, rfl⟩ : ∃ before, rounds = before + 1 := ⟨rounds - 1, by omega⟩
      rw [Nat.pow_zero, Nat.div_one] at under
      subst under
      have status := (represents j node).status_eq node (level_le _ _ _)
      rw [level_of_taken isTaken] at status
      have positive := node.height_pos
      rw [positionLoop, status, if_pos (by omega)]
  | succ n inductionHypothesis =>
      obtain ⟨rounds, rfl⟩ : ∃ before, rounds = before + 1 := ⟨rounds - 1, by omega⟩
      have pNode := s.node p isTaken
      have below : Above p j := ⟨pNode.1, n, under⟩
      have notRoot : j ≠ 1 := by
        have := below.le_half
        have := below.1
        omega
      -- nothing is taken below a taken node, so the status here is 0
      have empty : level s.taken (height a.tree.order j) j = 0 := by
        rw [level_eq_zero_iff]
        intro i k _ belowJ
        cases taken : s.taken i with
        | false => rfl
        | true =>
            refine absurd ?_ (s.apart p i isTaken taken)
            refine ⟨pNode.1, k + n, ?_⟩
            rw [← under, ← belowJ, Nat.div_div_eq_div_mul, ← Nat.pow_add, Nat.add_assoc]
      have status := (represents j node).status_eq node (level_le _ _ _)
      rw [empty] at status
      have parent := node.parent notRoot
      rw [positionLoop, status, if_neg (by simp), posOf_parent (by have := node.1; omega)]
      simp only [posOf_valid.mpr parent, if_true]
      refine inductionHypothesis parent ?_ (by omega)
      rw [Nat.div_div_eq_div_mul, ← Nat.pow_succ', under]

/-- The first leaf of a node is the deepest position of its address. -/
theorem deepestPositionForOffset_eq (node : Node a.tree.order p) :
    deepestPositionForOffset a.toBuddyAlloc
        ((p * 2 ^ (height a.tree.order p - 1) - 2 ^ (a.tree.order - 1)) * a.alignment) =
      posOf (p * 2 ^ (height a.tree.order p - 1)) := by
  obtain ⟨low, high⟩ := node.leaf_bounds (covers_first a.tree.order p)
  have orderPositive := a.order_pos
  have small := a.tree.order_le
  have size : (p * 2 ^ (height a.tree.order p - 1)).size = a.tree.order := by
    apply le_antisymm (Nat.size_le.mpr high)
    have := Nat.lt_size.mpr low
    omega
  have modulus : 2 ^ (a.tree.order - 1) % 2 ^ 32 = 2 ^ (a.tree.order - 1) := two_pow_mod (by omega)
  simp only [deepestPositionForOffset, buddyTreeLeftmostChild, posOf, modulus,
    Nat.mul_div_cancel _ a.alignment_pos, size, Nat.add_sub_cancel' low]

/-- The address of a taken block leads back to its node. -/
theorem positionForAddress_spec (represents : Represents a.tree m s.taken)
    (isTaken : s.taken p = true) :
    positionForAddress a.toBuddyAlloc m (addressForPosition a.toBuddyAlloc (posOf p)) =
      posOf p := by
  have node := s.node p isTaken
  obtain ⟨low, high⟩ := node.leaf_bounds (covers_first a.tree.order p)
  have leaf : Node a.tree.order (p * 2 ^ (height a.tree.order p - 1)) :=
    ⟨lt_of_lt_of_le (by positivity) low, high⟩
  have climb := positionLoop_spec represents isTaken leaf
    (covers_first a.tree.order p) (show _ < a.tree.order by
      have := node.height_pos
      have := node.size_pos
      have := a.order_pos
      unfold height
      omega)
  unfold positionForAddress
  rw [a.addressForPosition_posOf node, Nat.add_sub_cancel_left]
  simp only [Nat.mul_mod_left, ne_eq, not_true_eq_false, if_false, deepestPositionForOffset_eq node]
  have depth : (posOf (p * 2 ^ (height a.tree.order p - 1))).depth = a.tree.order := by
    apply le_antisymm leaf.size_le
    have := Nat.lt_size.mpr low
    have := a.order_pos
    change _ ≤ Nat.size _
    omega
  rw [depth, climb, posOf_valid.mpr node, a.addressForPosition_posOf node]
  simp

/-- `buddy_free_find_pos` finds the node of a live block. -/
theorem buddyFreeFindPos_spec (represents : Represents a.tree m s.taken)
    (isTaken : s.taken p = true) {requested : Nat} (fits : requested ≤ a.memorySize)
    (sizeClass : p.size = depthForSize a.toBuddyAlloc requested)
    (inside : addressForPosition a.toBuddyAlloc (posOf p) < a.main + a.memorySize) :
    buddyFreeFindPos a.toBuddyAlloc m (addressForPosition a.toBuddyAlloc (posOf p)) requested =
      posOf p := by
  have node := s.node p isTaken
  have start : a.main ≤ addressForPosition a.toBuddyAlloc (posOf p) := by
    rw [a.addressForPosition_posOf node]
    omega
  have mainPositive := a.main_pos
  have clamped : (if requested < a.alignment then a.alignment else requested) =
      max requested a.alignment := by
    split <;> omega
  obtain ⟨_, _, large, tight⟩ := a.depthForSize_spec fits
  have size : sizeForDepth a.toBuddyAlloc (posOf p).depth =
      sizeForDepth a.toBuddyAlloc (depthForSize a.toBuddyAlloc requested) := by
    rw [← sizeClass]
    rfl
  unfold buddyFreeFindPos
  rw [if_neg (by omega), if_neg (by omega), positionForAddress_spec represents isTaken]
  simp only [posOf_valid.mpr node, clamped, size, Bool.true_eq_false, if_false]
  rw [if_neg (by omega), if_neg (by omega)]

/-- `buddy_free_apply` gives a taken node back. -/
theorem buddyFreeApply_spec (represents : Represents a.tree m s.taken)
    (isTaken : s.taken p = true) :
    ∃ stores, (buddyFreeApply a.toBuddyAlloc (posOf p)).Returns m stores () ∧
      Represents a.tree (m.apply stores) (s.erase p).taken ∧
      TreeFrame a.tree m (m.apply stores) := by
  have notTaken : ∀ {i}, ¬ s.taken i = true → s.taken i = false := fun no =>
    Bool.eq_false_iff.mpr no
  exact buddyTreeRelease_spec represents (s.node p isTaken) isTaken
    (fun i above => notTaken fun taken => s.apart i p taken isTaken above)
    (fun j below => notTaken fun taken => s.apart p j isTaken taken below)

end Free

/-! ## Setting up -/

section Setup

variable {a : Arena} {m : Mem} {s : BlockSet a.tree.order} {p : Nat}

/-- Exactly the leaves from `start` on are covered. -/
def CoversFrom (s : BlockSet a.tree.order) (start : Nat) : Prop :=
  ∀ leaf, 2 ^ (a.tree.order - 1) ≤ leaf → leaf < 2 ^ a.tree.order →
    (s.Covered leaf ↔ start ≤ leaf)

/-- Marking the node in front of the covered leaves covers its own as well. -/
theorem mark_front (represents : Represents a.tree m s.taken) (node : Node a.tree.order p)
    (front : CoversFrom s ((p + 1) * 2 ^ (height a.tree.order p - 1))) :
    ∃ stores, ∃ s' : BlockSet a.tree.order, (buddyTreeMark a.tree (posOf p)).Returns m stores () ∧
      Represents a.tree (m.apply stores) s'.taken ∧ TreeFrame a.tree m (m.apply stores) ∧
      CoversFrom s' (p * 2 ^ (height a.tree.order p - 1)) := by
  have vacant : s.Vacant p := by
    refine BlockSet.vacant_of_not_covered node fun leaf covers covered => ?_
    obtain ⟨low, high⟩ := node.leaf_bounds covers
    have below := (covers_iff.mp covers).2
    have := (front leaf low high).mp covered
    omega
  obtain ⟨stores, returns, after, frame⟩ :=
    buddyTreeMark_spec represents node fun _ above => vacant.open_path above
  refine ⟨stores, s.insert p node vacant, returns, after, frame, fun leaf low high => ?_⟩
  have width : p * 2 ^ (height a.tree.order p - 1) ≤ (p + 1) * 2 ^ (height a.tree.order p - 1) :=
    Nat.mul_le_mul_right _ (Nat.le_succ p)
  rw [BlockSet.covered_insert, front leaf low high, covers_iff]
  omega

/-- The loop covers the last `delta` blocks in front of the covered leaves. -/
theorem toggleVirtualSlotsLoop_spec (represents : Represents a.tree m s.taken)
    (node : Node a.tree.order p) {delta rounds : Nat} (positive : 0 < delta)
    (fits : delta ≤ 2 ^ (height a.tree.order p - 1)) (enough : height a.tree.order p ≤ rounds)
    (front : CoversFrom s ((p + 1) * 2 ^ (height a.tree.order p - 1))) :
    ∃ stores, ∃ s' : BlockSet a.tree.order,
      (toggleVirtualSlotsLoop a.toBuddyAlloc buddyTreeMark rounds (delta * a.alignment)
        (posOf p)).Returns m stores () ∧
      Represents a.tree (m.apply stores) s'.taken ∧ TreeFrame a.tree m (m.apply stores) ∧
      CoversFrom s' ((p + 1) * 2 ^ (height a.tree.order p - 1) - delta) := by
  have alignment := a.alignment_pos
  induction rounds generalizing p delta m s with
  | zero =>
      have := node.height_pos
      omega
  | succ rounds inductionHypothesis =>
      have size : sizeForDepth a.toBuddyAlloc (posOf p).depth =
          2 ^ (height a.tree.order p - 1) * a.alignment := a.sizeForDepth_node node
      have some : delta * a.alignment ≠ 0 := Nat.mul_ne_zero (by omega) (by omega)
      rw [toggleVirtualSlotsLoop, if_neg some, size]
      by_cases whole : delta = 2 ^ (height a.tree.order p - 1)
      · rw [if_pos (by rw [whole])]
        obtain ⟨stores, s', returns, after, frame, covers⟩ := mark_front represents node front
        refine ⟨stores, s', returns, after, frame, ?_⟩
        rw [whole, Nat.add_mul, Nat.one_mul, Nat.add_sub_cancel]
        exact covers
      · have partly : ¬ delta * a.alignment = 2 ^ (height a.tree.order p - 1) * a.alignment :=
          fun same => whole (Nat.eq_of_mul_eq_mul_right alignment same)
        have inner : 1 < height a.tree.order p := by
          by_contra leaf
          have := node.height_pos
          rw [show height a.tree.order p - 1 = 0 by omega, Nat.pow_zero] at fits whole
          omega
        obtain ⟨lower, levels⟩ : ∃ lower, height a.tree.order p = lower + 2 :=
          ⟨height a.tree.order p - 2, by omega⟩
        have left : Node a.tree.order (2 * p) := node.below inner (by omega)
        have right : Node a.tree.order (2 * p + 1) := node.below inner (by omega)
        have leftHeight : height a.tree.order (2 * p) = lower + 1 := by
          rw [height_child _ node.1 (by omega : 2 * p / 2 = p), levels]
          rfl
        have rightHeight : height a.tree.order (2 * p + 1) = lower + 1 := by
          rw [height_child _ node.1 (by omega : (2 * p + 1) / 2 = p), levels]
          rfl
        have double : 2 ^ (height a.tree.order p - 1) = 2 * 2 ^ lower := by
          rw [levels, show lower + 2 - 1 = lower + 1 by omega, Nat.pow_succ']
        have half :
            2 ^ (height a.tree.order p - 1) * a.alignment / 2 = 2 ^ lower * a.alignment := by
          rw [double, Nat.mul_assoc, Nat.mul_div_cancel_left _ (by omega)]
        have boundary : (p + 1) * (2 * 2 ^ lower) = (2 * p + 1 + 1) * 2 ^ lower := by ring
        rw [if_neg partly, half, double, boundary]
        rw [double] at fits whole
        rw [double, boundary] at front
        by_cases rightOnly : delta ≤ 2 ^ lower
        · rw [if_pos (Nat.mul_le_mul_right _ rightOnly), posOf_rightChild node.1]
          have result := inductionHypothesis represents right positive
            (by rw [rightHeight]; exact rightOnly) (by omega) (by rw [rightHeight]; exact front)
          rw [rightHeight] at result
          exact result
        · have more : ¬ delta * a.alignment ≤ 2 ^ lower * a.alignment := fun less =>
            rightOnly (Nat.le_of_mul_le_mul_right less alignment)
          rw [if_neg more, posOf_rightChild node.1, posOf_leftChild node.1, ← Nat.sub_mul]
          obtain ⟨first, s', marked, after, frame, covers⟩ :=
            mark_front represents right (by rw [rightHeight]; exact front)
          rw [rightHeight] at covers
          obtain ⟨stores, s'', returns, finally_, frame', covers'⟩ :=
            inductionHypothesis after left (by omega : 0 < delta - 2 ^ lower)
              (by rw [leftHeight, Nat.add_sub_cancel]; omega) (by omega)
              (by rw [leftHeight]; exact covers)
          refine ⟨first ++ stores, s'', Shm.Returns.bind marked returns, ?_, ?_, ?_⟩
          · rw [Mem.apply_append]
            exact finally_
          · rw [Mem.apply_append]
            exact frame.trans frame'
          · rw [leftHeight, Nat.add_sub_cancel] at covers'
            have : (2 * p + 1) * 2 ^ lower - (delta - 2 ^ lower) =
                (2 * p + 1 + 1) * 2 ^ lower - delta := by
              rw [Nat.add_mul (2 * p + 1) 1, Nat.one_mul]
              omega
            rw [← this]
            exact covers'

/-- The virtual slots are the blocks behind the end of memory. -/
theorem buddyToggleVirtualSlots_spec (represents : Represents a.tree m (fun _ => false)) :
    ∃ stores, ∃ s : BlockSet a.tree.order,
      (buddyToggleVirtualSlots a.toBuddyAlloc true).Returns m stores () ∧
      Represents a.tree (m.apply stores) s.taken ∧ TreeFrame a.tree m (m.apply stores) ∧
      CoversFrom s (2 ^ (a.tree.order - 1) + a.blocks) := by
  have notCovered : ∀ leaf, ¬ (BlockSet.empty a.tree.order).Covered leaf := by
    rintro leaf ⟨_, taken, _⟩
    exact Bool.false_ne_true taken
  have alignment := a.alignment_pos
  have doubled : 2 ^ a.tree.order = 2 ^ (a.tree.order - 1) * 2 := by
    rw [← Nat.pow_succ, Nat.succ_eq_add_one, Nat.sub_add_cancel a.order_pos]
  have effective : buddyEffectiveMemorySize a.toBuddyAlloc =
      2 ^ (a.tree.order - 1) * a.alignment := by
    rw [buddyEffectiveMemorySize, a.effective_eq, Nat.pow_add, a.alignment_eq]
  have memory : a.memorySize = a.blocks * a.alignment := by
    rw [a.memorySize_eq, a.alignment_eq]
  have bound := a.blocks_le
  unfold buddyToggleVirtualSlots
  simp only [effective, memory, if_true]
  by_cases whole : 2 ^ (a.tree.order - 1) = a.blocks
  · rw [if_pos (by rw [whole])]
    refine ⟨[], BlockSet.empty _, rfl, represents, TreeFrame.refl _ _, fun leaf _ high => ?_⟩
    refine iff_of_false (notCovered leaf) ?_
    omega
  · have partly : ¬ 2 ^ (a.tree.order - 1) * a.alignment = a.blocks * a.alignment :=
      fun same => whole (Nat.eq_of_mul_eq_mul_right alignment same)
    have several : 1 < a.tree.order := by
      by_contra single
      have := a.order_pos
      have := a.blocks_pos
      rw [show a.tree.order - 1 = 0 by omega, Nat.pow_zero] at bound whole
      omega
    have halves := a.half_lt_blocks several
    obtain ⟨lower, order⟩ : ∃ lower, a.tree.order = lower + 2 := ⟨a.tree.order - 2, by omega⟩
    have double : 2 ^ (a.tree.order - 1) = 2 * 2 ^ lower := by
      rw [order, show lower + 2 - 1 = lower + 1 by omega, Nat.pow_succ']
    have right : Node a.tree.order 3 := a.root_node.below (by rw [height_root]; omega) (by decide)
    have rightHeight : height a.tree.order 3 = lower + 1 := by
      rw [height_child _ (by decide) (by decide : 3 / 2 = 1), height_root, order]
      rfl
    have quarter : a.tree.order - 2 = lower := by omega
    rw [quarter] at halves
    rw [if_neg partly, posOf_root, posOf_rightChild (by decide), ← Nat.sub_mul]
    have front : CoversFrom (BlockSet.empty a.tree.order)
        ((3 + 1) * 2 ^ (height a.tree.order 3 - 1)) := by
      intro leaf _ high
      refine iff_of_false (notCovered leaf) ?_
      rw [rightHeight, Nat.add_sub_cancel]
      omega
    obtain ⟨stores, s, returns, after, frame, covers⟩ :=
      toggleVirtualSlotsLoop_spec (s := BlockSet.empty a.tree.order) represents right
        (by omega : 0 < 2 ^ (a.tree.order - 1) - a.blocks)
        (by rw [rightHeight, Nat.add_sub_cancel]; omega)
        (by rw [rightHeight]; omega : _ ≤ a.tree.order) front
    refine ⟨stores, s, returns, after, frame, ?_⟩
    rw [rightHeight, Nat.add_sub_cancel] at covers
    have start : (3 + 1) * 2 ^ lower - (2 ^ (a.tree.order - 1) - a.blocks) =
        2 ^ (a.tree.order - 1) + a.blocks := by omega
    rw [← start]
    exact covers

/-- Cleared bits are those of a tree with nothing taken. -/
theorem buddyTreeInit_spec (t : BuddyTree) (m : Mem) :
    Represents t (m.store (clearedBits t)) (fun _ => false) := by
  intro i node j inside
  have empty : level (fun _ => false) (height t.order i) i = 0 :=
    level_eq_zero_iff.mpr fun _ _ _ _ => rfl
  have last := field_le_fieldStart node node.2 le_rfl
  rw [fieldStart_end] at last
  rw [empty, decide_eq_false (Nat.not_lt_zero j)]
  change ((m.store _) (t.bits + (fieldStart t.order i + j) / 8)).getLsbD _ = false
  have within : (fieldStart t.order i + j) / 8 < bitsetSizeof (sizeForOrder t.order 0) := by
    unfold bitsetSizeof
    omega
  simp [Mem.store, clearedBits, within]

end Setup

end Lupin.Buddy
