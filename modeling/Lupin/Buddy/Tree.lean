import Lupin.Buddy.Bitset
import Lupin.Buddy.Size

/-!
# The buddy tree

A complete binary tree of statuses, numbered from the root 1. The status of a
node is kept in unary in a field of as many bits as the node has levels at and
below it, and the fields of all nodes are packed into one bitset, level by level.
-/

namespace Lupin.Buddy

open Lupin.Memory Lupin.HeapIndex

/-- `struct buddy_tree`: the order, and where its bits are. The memoised
`size_for_order` table behind the bits holds the values of that function. The
positions are made with 32 bit shifts, so an order is at most 31. -/
structure BuddyTree where
  order : Nat
  bits : Nat
  order_le : order ≤ 31

/-- `struct buddy_tree_pos`. -/
structure BuddyTreePos where
  index : Nat
  depth : Nat
deriving DecidableEq, Repr

/-- `INVALID_POS`. -/
def invalidPos : BuddyTreePos := ⟨0, 0⟩

/-- The field `upper_pos_bound`. -/
def BuddyTree.upperPosBound (t : BuddyTree) : Nat := 2 ^ t.order % 2 ^ 32

/-- `buddy_tree_valid`. -/
def buddyTreeValid (t : BuddyTree) (pos : BuddyTreePos) : Bool :=
  pos.index != 0 && decide (pos.index < t.upperPosBound)

/-- `buddy_tree_root`. -/
def buddyTreeRoot : BuddyTreePos := ⟨1, 1⟩

/-- `buddy_tree_leftmost_child`. -/
def buddyTreeLeftmostChild (t : BuddyTree) : BuddyTreePos :=
  ⟨2 ^ (t.order - 1) % 2 ^ 32, t.order⟩

/-- `buddy_tree_left_child`. -/
def buddyTreeLeftChild (pos : BuddyTreePos) : BuddyTreePos := ⟨2 * pos.index, pos.depth + 1⟩

/-- `buddy_tree_right_child`. -/
def buddyTreeRightChild (pos : BuddyTreePos) : BuddyTreePos := ⟨2 * pos.index + 1, pos.depth + 1⟩

/-- `buddy_tree_sibling`. -/
def buddyTreeSibling (pos : BuddyTreePos) : BuddyTreePos := ⟨pos.index ^^^ 1, pos.depth⟩

/-- `buddy_tree_parent`. -/
def buddyTreeParent (pos : BuddyTreePos) : BuddyTreePos := ⟨pos.index / 2, pos.depth - 1⟩

/-- `buddy_tree_index`: the index with the highest bit cleared. -/
def buddyTreeIndex (pos : BuddyTreePos) : Nat :=
  let mask := 2 ^ (pos.depth - 1) % 2 ^ 32
  -- `index & ~mask`
  pos.index - (pos.index &&& mask)

/-- `struct internal_position`. -/
structure InternalPosition where
  localOffset : Nat
  bitsetLocation : Nat

/-- `buddy_tree_internal_position_tree`. -/
def buddyTreeInternalPositionTree (t : BuddyTree) (pos : BuddyTreePos) : InternalPosition :=
  let localOffset := t.order - pos.depth + 1
  let totalOffset := sizeForOrder t.order localOffset
  ⟨localOffset, totalOffset + localOffset * buddyTreeIndex pos⟩

/-- `write_to_internal_position`. -/
def writeToInternalPosition (bitset : Nat) (pos : InternalPosition) (value : Nat) : Shm Unit := do
  bitsetClearRange bitset pos.bitsetLocation (pos.bitsetLocation + pos.localOffset - 1)
  if value ≠ 0 then
    bitsetSetRange bitset pos.bitsetLocation (pos.bitsetLocation + value - 1)
  else
    pure ()

/-- `read_from_internal_position`. -/
def readFromInternalPosition (m : Mem) (bitset : Nat) (pos : InternalPosition) : Nat :=
  if bitsetTest m bitset pos.bitsetLocation then
    bitsetCountRange m bitset pos.bitsetLocation (pos.bitsetLocation + pos.localOffset - 1)
  else
    0

/-- `compare_with_internal_position`. -/
def compareWithInternalPosition (m : Mem) (bitset : Nat) (pos : InternalPosition) (value : Nat) :
    Bool :=
  bitsetTest m bitset (pos.bitsetLocation + value - 1)

/-- `buddy_tree_status`. -/
def buddyTreeStatus (t : BuddyTree) (m : Mem) (pos : BuddyTreePos) : Nat :=
  readFromInternalPosition m t.bits (buddyTreeInternalPositionTree t pos)

/-- The loop of `update_parent_chain`. The depth bounds its rounds; a position
that never gets to the root loops for good. -/
def updateParentChain (t : BuddyTree) :
    (rounds : Nat) → BuddyTreePos → InternalPosition → (sizeCurrent : Nat) → Shm Unit
  | 0, _, _, _ => Shm.stop
  | rounds + 1, pos, posInternal, sizeCurrent =>
      if pos.index = 1 then pure ()
      else do
        let sibling : InternalPosition :=
          { posInternal with
            bitsetLocation := posInternal.bitsetLocation + posInternal.localOffset -
              2 * posInternal.localOffset * (pos.index % 2) }
        let m ← Shm.get
        let sizeSibling := readFromInternalPosition m t.bits sibling
        let parent := buddyTreeParent pos
        let parentInternal := buddyTreeInternalPositionTree t parent
        let sizeParent := readFromInternalPosition m t.bits parentInternal
        let targetParent :=
          if sizeCurrent ≠ 0 ∨ sizeSibling ≠ 0 then
            (if sizeCurrent ≤ sizeSibling then sizeCurrent else sizeSibling) + 1
          else 0
        if targetParent = sizeParent then pure ()
        else do
          writeToInternalPosition t.bits parentInternal targetParent
          updateParentChain t rounds parent parentInternal targetParent

/-- `buddy_tree_mark`. -/
def buddyTreeMark (t : BuddyTree) (pos : BuddyTreePos) : Shm Unit := do
  let internal := buddyTreeInternalPositionTree t pos
  writeToInternalPosition t.bits internal internal.localOffset
  updateParentChain t pos.depth pos internal internal.localOffset

/-- `buddy_tree_release`. -/
def buddyTreeRelease (t : BuddyTree) (pos : BuddyTreePos) : Shm Unit := do
  let internal := buddyTreeInternalPositionTree t pos
  let m ← Shm.get
  if readFromInternalPosition m t.bits internal ≠ internal.localOffset then pure ()
  else do
    writeToInternalPosition t.bits internal 0
    updateParentChain t pos.depth pos internal 0

/-- The loop of `buddy_tree_find_free`, `rounds` levels above its target. -/
def findFreeLoop (t : BuddyTree) (m : Mem) :
    (rounds targetStatus : Nat) → BuddyTreePos → BuddyTreePos
  | 0, _, currentPos => currentPos
  | rounds + 1, targetStatus, currentPos =>
      let targetStatus := targetStatus - 1
      let leftPos := buddyTreeLeftChild currentPos
      let rightPos := buddyTreeSibling leftPos
      let leftInternal := buddyTreeInternalPositionTree t leftPos
      let rightInternal : InternalPosition :=
        { leftInternal with
          bitsetLocation := leftInternal.bitsetLocation + leftInternal.localOffset }
      let rightStatus :=
        readFromInternalPosition m t.bits { rightInternal with localOffset := targetStatus }
      let next :=
        if compareWithInternalPosition m t.bits leftInternal (targetStatus + 1) then rightPos
        else if compareWithInternalPosition m t.bits rightInternal (targetStatus + 1) then leftPos
        else if rightStatus ≠ 0 then
          if compareWithInternalPosition m t.bits leftInternal rightStatus then leftPos
          else rightPos
        else leftPos
      findFreeLoop t m rounds targetStatus next

/-- `buddy_tree_find_free`. -/
def buddyTreeFindFree (t : BuddyTree) (m : Mem) (targetDepth : Nat) : BuddyTreePos :=
  let targetStatus := targetDepth - 1
  if buddyTreeStatus t m buddyTreeRoot > targetStatus then invalidPos
  else findFreeLoop t m (targetDepth - buddyTreeRoot.depth) targetStatus buddyTreeRoot

/-! ## Nodes and their fields -/

/-- The position of node `i`. -/
def posOf (i : Nat) : BuddyTreePos := ⟨i, i.size⟩

/-- Where the field of a node starts. -/
def fieldStart (order i : Nat) : Nat :=
  sizeForOrder order (height order i) + height order i * (i - 2 ^ (i.size - 1))

section Geometry

variable {order i : Nat}

@[simp] theorem fieldStart_root (order : Nat) : fieldStart order 1 = 0 := by
  simp [fieldStart, sizeForOrder, sizeForOrderLoop]

/-- Fields follow each other in the order of the nodes. -/
theorem fieldStart_succ (node : Node order i) :
    fieldStart order (i + 1) = fieldStart order i + height order i := by
  have sizePositive := node.size_pos
  have sizeBound := node.size_le
  have low := node.low
  have double : 2 ^ i.size = 2 ^ (i.size - 1) * 2 := by
    rw [← Nat.pow_succ, Nat.succ_eq_add_one, Nat.sub_add_cancel sizePositive]
  by_cases last : i + 1 = 2 ^ i.size
  · -- the last node of a level: the next one starts the level below
    have nextSize : (i + 1).size = i.size + 1 := by rw [last, Nat.size_pow]
    have shorter : height order i = height order (i + 1) + 1 := by
      unfold height
      omega
    have level : height order (i + 1) < order := by
      unfold height
      omega
    have exponent : order - (height order (i + 1) + 1) = i.size - 1 := by
      unfold height
      omega
    have row : i - 2 ^ (i.size - 1) + 1 = 2 ^ (i.size - 1) := by omega
    have first : i + 1 - 2 ^ ((i + 1).size - 1) = 0 := by
      rw [nextSize, Nat.add_sub_cancel, last, Nat.sub_self]
    unfold fieldStart
    rw [first, sizeForOrder_step level, exponent, ← shorter, Nat.mul_zero, Nat.add_zero,
      Nat.add_assoc, ← Nat.mul_succ, Nat.succ_eq_add_one, row]
  · have above := Nat.lt_size_self i
    have nextSize : (i + 1).size = i.size := by
      apply le_antisymm
      · rw [Nat.size_le]
        omega
      · exact Nat.size_le_size (Nat.le_succ i)
    have same : height order (i + 1) = height order i := by
      unfold height
      rw [nextSize]
    unfold fieldStart
    rw [same, nextSize, show i + 1 - 2 ^ (i.size - 1) = (i - 2 ^ (i.size - 1)).succ by omega,
      Nat.mul_succ, Nat.add_assoc]

/-- The bits of a tree. -/
theorem fieldStart_end (order : Nat) : fieldStart order (2 ^ order) = sizeForOrder order 0 := by
  simp [fieldStart, height, Nat.size_pow]

/-- Fields of different nodes do not share a bit. -/
theorem field_le_fieldStart {j : Nat} (node : Node order i) (later : i < j)
    (bound : j ≤ 2 ^ order) : fieldStart order i + height order i ≤ fieldStart order j := by
  induction j with
  | zero => omega
  | succ j inductionHypothesis =>
      by_cases here : i = j
      · subst here
        exact le_of_eq (fieldStart_succ node).symm
      · have next := fieldStart_succ (⟨by omega, by omega⟩ : Node order j)
        have before := inductionHypothesis (by omega) (by omega)
        omega

/-- Every bit of the tree is in the field of a node. -/
theorem exists_field {k : Nat} (inside : k < sizeForOrder order 0) :
    ∃ i, Node order i ∧ fieldStart order i ≤ k ∧ k < fieldStart order i + height order i := by
  have search : ∀ j, 0 < j → j ≤ 2 ^ order → k < fieldStart order j →
      ∃ i, Node order i ∧ fieldStart order i ≤ k ∧ k < fieldStart order i + height order i := by
    intro j
    induction j with
    | zero =>
        intro positive
        omega
    | succ j inductionHypothesis =>
        intro _ bound before
        by_cases first : j = 0
        · subst first
          simp at before
        · have node : Node order j := ⟨by omega, by omega⟩
          rw [fieldStart_succ node] at before
          by_cases here : fieldStart order j ≤ k
          · exact ⟨j, node, here, before⟩
          · exact inductionHypothesis (by omega) (by omega) (by omega)
  exact search (2 ^ order) (by positivity) le_rfl (by rw [fieldStart_end]; exact inside)

end Geometry

/-! ## Positions of nodes -/

section Positions

variable {t : BuddyTree} {i : Nat}

theorem posOf_root : buddyTreeRoot = posOf 1 := by
  simp [buddyTreeRoot, posOf]

theorem posOf_leftChild (positive : 0 < i) : buddyTreeLeftChild (posOf i) = posOf (2 * i) := by
  simp [buddyTreeLeftChild, posOf, size_child positive (by omega : 2 * i / 2 = i)]

theorem posOf_rightChild (positive : 0 < i) :
    buddyTreeRightChild (posOf i) = posOf (2 * i + 1) := by
  simp [buddyTreeRightChild, posOf, size_child positive (by omega : (2 * i + 1) / 2 = i)]

theorem posOf_parent (notRoot : 1 < i) : buddyTreeParent (posOf i) = posOf (i / 2) := by
  have sizes := size_parent notRoot
  simp only [buddyTreeParent, posOf, BuddyTreePos.mk.injEq, true_and]
  omega

theorem two_pow_mod {n : Nat} (bound : n ≤ 31) : 2 ^ n % 2 ^ 32 = 2 ^ n :=
  Nat.mod_eq_of_lt (Nat.pow_lt_pow_right (by omega) (by omega))

theorem posOf_valid : buddyTreeValid t (posOf i) = true ↔ Node t.order i := by
  unfold buddyTreeValid Node BuddyTree.upperPosBound posOf
  rw [two_pow_mod t.order_le, Bool.and_eq_true, bne_iff_ne, decide_eq_true_iff, Nat.pos_iff_ne_zero]

theorem invalidPos_not_valid : buddyTreeValid t invalidPos = false := rfl

theorem buddyTreeIndex_posOf (node : Node t.order i) :
    buddyTreeIndex (posOf i) = i - 2 ^ (i.size - 1) := by
  have sizePositive := node.size_pos
  have sizeBound := node.size_le
  have small := t.order_le
  have low := node.low
  have high : i < 2 ^ (i.size - 1 + 1) := by
    rw [Nat.sub_add_cancel sizePositive]
    exact Nat.lt_size_self i
  have top : i.testBit (i.size - 1) = true :=
    Nat.testBit_of_two_pow_le_and_two_pow_add_one_gt low high
  simp only [buddyTreeIndex, posOf]
  rw [two_pow_mod (by omega), Nat.and_two_pow, top, Bool.toNat_true, Nat.one_mul]

/-- The internal position of a node is its field. -/
theorem buddyTreeInternalPositionTree_posOf (node : Node t.order i) :
    buddyTreeInternalPositionTree t (posOf i) =
      ⟨height t.order i, fieldStart t.order i⟩ := by
  have width : t.order - (posOf i).depth + 1 = height t.order i := by
    have := node.size_le
    simp only [posOf, height]
    omega
  simp only [buddyTreeInternalPositionTree, width, buddyTreeIndex_posOf node, fieldStart]

end Positions

/-! ## The stores of the tree -/

section Emits

variable {t : BuddyTree}

theorem writeToInternalPosition_emits (bitset : Nat) (pos : InternalPosition) (value : Nat) :
    Shm.Emits (fun s => bitset ≤ s.addr) (writeToInternalPosition bitset pos value) := by
  exact .bind (updateRange_emits _ _ _ _ _) fun _ =>
    .ite (updateRange_emits _ _ _ _ _) (.pure _)

theorem updateParentChain_emits (rounds : Nat) (pos : BuddyTreePos) (internal : InternalPosition)
    (sizeCurrent : Nat) :
    Shm.Emits (fun s => t.bits ≤ s.addr) (updateParentChain t rounds pos internal sizeCurrent) := by
  induction rounds generalizing pos internal sizeCurrent with
  | zero => exact .stop
  | succ rounds inductionHypothesis =>
      exact .ite (.pure _) (.get_bind fun m => .ite (.pure _)
        (.bind (writeToInternalPosition_emits _ _ _) fun _ => inductionHypothesis _ _ _))

theorem buddyTreeMark_emits (pos : BuddyTreePos) :
    Shm.Emits (fun s => t.bits ≤ s.addr) (buddyTreeMark t pos) :=
  .bind (writeToInternalPosition_emits _ _ _) fun _ => updateParentChain_emits _ _ _ _

theorem buddyTreeRelease_emits (pos : BuddyTreePos) :
    Shm.Emits (fun s => t.bits ≤ s.addr) (buddyTreeRelease t pos) :=
  .get_bind fun _ => .ite (.pure _)
    (.bind (writeToInternalPosition_emits _ _ _) fun _ => updateParentChain_emits _ _ _ _)

end Emits

end Lupin.Buddy
