import Mathlib.Data.Nat.Size
import Mathlib.Tactic.Common
import Mathlib.Tactic.Positivity

/-!
# Heap-numbered binary trees

Nodes of a complete binary tree are numbered as in a heap: the root is 1, the
children of `i` are `2 * i` and `2 * i + 1`. The number of bits of an index is its
depth. A tree of order `n` has the nodes below `2 ^ n`; its leaves are the nodes
of depth `n`.
-/

namespace Lupin.HeapIndex

/-- A node of a tree of this order. -/
def Node (order i : Nat) : Prop := 0 < i ∧ i < 2 ^ order

/-- The levels at and below a node. -/
def height (order i : Nat) : Nat := order + 1 - i.size

/-- `a` is a proper ancestor of `c`. -/
def Above (a c : Nat) : Prop := 0 < a ∧ ∃ n, c / 2 ^ (n + 1) = a

/-- The other child of the same parent. -/
def sibling (c : Nat) : Nat := if c % 2 = 0 then c + 1 else c - 1

section Depth

variable {order i child : Nat}

theorem size_div_pow (value count : Nat) :
    (value / 2 ^ count).size = value.size - count := by
  apply le_antisymm
  · rw [Nat.size_le, Nat.div_lt_iff_lt_mul (by positivity), ← Nat.pow_add, ← Nat.size_le]
    omega
  · by_contra smaller
    have small : (value / 2 ^ count).size ≤ (value / 2 ^ count).size := le_rfl
    rw [Nat.size_le, Nat.div_lt_iff_lt_mul (by positivity), ← Nat.pow_add, ← Nat.size_le] at small
    omega

theorem size_child (positive : 0 < i) (isChild : child / 2 = i) : child.size = i.size + 1 := by
  have above := Nat.lt_size_self i
  have sizePositive := Nat.size_pos.mpr positive
  have below : 2 ^ (i.size - 1) ≤ i := Nat.lt_size.mp (by omega)
  have double : 2 ^ i.size = 2 ^ (i.size - 1) * 2 := by
    rw [← Nat.pow_succ, Nat.succ_eq_add_one, Nat.sub_add_cancel sizePositive]
  apply le_antisymm
  · rw [Nat.size_le, Nat.pow_succ]
    omega
  · rw [Nat.succ_le_iff, Nat.lt_size]
    omega

theorem size_parent (notRoot : 1 < i) : (i / 2).size + 1 = i.size :=
  (size_child (by omega) rfl).symm

theorem Node.size_le (node : Node order i) : i.size ≤ order := Nat.size_le.mpr node.2

theorem Node.size_pos (node : Node order i) : 0 < i.size := Nat.size_pos.mpr node.1

theorem Node.low (node : Node order i) : 2 ^ (i.size - 1) ≤ i :=
  Nat.lt_size.mp (by have := node.size_pos; omega)

theorem Node.height_pos (node : Node order i) : 0 < height order i := by
  have := node.size_le
  unfold height
  omega

theorem Node.parent (node : Node order i) (notRoot : i ≠ 1) : Node order (i / 2) := by
  obtain ⟨positive, bound⟩ := node
  exact ⟨by omega, by omega⟩

theorem Node.height_parent (node : Node order i) (notRoot : i ≠ 1) :
    height order (i / 2) = height order i + 1 := by
  have sizes := size_parent (i := i) (by have := node.1; omega)
  have := node.size_le
  unfold height
  omega

theorem height_child (order : Nat) (positive : 0 < i) (isChild : child / 2 = i) :
    height order child = height order i - 1 := by
  unfold height
  rw [size_child positive isChild]
  omega

/-- A node with a level below it has children in the tree. -/
theorem Node.below (node : Node order i) (inner : 1 < height order i) (isChild : child / 2 = i) :
    Node order child := by
  refine ⟨by have := node.1; omega, ?_⟩
  rw [← Nat.size_le, size_child node.1 isChild]
  unfold height at inner
  omega

@[simp] theorem height_root (order : Nat) : height order 1 = order := by
  simp [height]

end Depth

/-! ## Paths -/

section Path

variable {order a b c : Nat}

theorem Above.le_half (above : Above a c) : a ≤ c / 2 := by
  obtain ⟨_, n, rfl⟩ := above
  rw [Nat.pow_succ', ← Nat.div_div_eq_div_mul]
  exact Nat.div_le_self _ _

theorem above_half (notRoot : 1 < c) : Above (c / 2) c := ⟨by omega, 0, by simp⟩

theorem Above.half (above : Above a c) (different : a ≠ c / 2) : Above a (c / 2) := by
  obtain ⟨positive, n, rfl⟩ := above
  cases n with
  | zero => simp at different
  | succ n =>
      refine ⟨positive, n, ?_⟩
      rw [Nat.div_div_eq_div_mul, ← Nat.pow_succ']

theorem Above.of_half (above : Above a (c / 2)) : Above a c := by
  obtain ⟨positive, n, rfl⟩ := above
  refine ⟨positive, n + 1, ?_⟩
  rw [Nat.div_div_eq_div_mul, ← Nat.pow_succ']

/-- The parent of an ancestor is an ancestor. -/
theorem Above.parent (above : Above a c) (notRoot : a ≠ 1) : Above (a / 2) c := by
  obtain ⟨positive, n, rfl⟩ := above
  refine ⟨by omega, n + 1, ?_⟩
  rw [Nat.pow_succ 2 (n + 1), ← Nat.div_div_eq_div_mul]

theorem sibling_half : sibling c / 2 = c / 2 := by
  unfold sibling
  split <;> omega

theorem sibling_ne (positive : 0 < c) : sibling c ≠ c := by
  unfold sibling
  split <;> omega

/-- A sibling is not on the path upwards. -/
theorem not_above_sibling (positive : 1 < c) : ¬ Above (sibling c) c := by
  intro above
  have low := above.le_half
  have half := sibling_half (c := c)
  omega

/-- Nor is the sibling of a node of the path. -/
theorem Above.not_above_sibling (above : Above a c) (notRoot : 1 < a) :
    ¬ Above (sibling a) c ∧ sibling a ≠ c := by
  obtain ⟨positive, n, rfl⟩ := above
  have half := sibling_half (c := c / 2 ^ (n + 1))
  have different := sibling_ne positive
  refine ⟨?_, ?_⟩
  · rintro ⟨_, k, other⟩
    rw [← other] at half
    rcases Nat.lt_trichotomy k n with lower | same | higher
    · obtain ⟨gap, rfl⟩ : ∃ gap, n = k + 1 + gap := ⟨n - (k + 1), by omega⟩
      have deeper : c / 2 ^ (k + 1 + gap + 1) ≤ c / 2 ^ (k + 1) / 2 := by
        rw [Nat.div_div_eq_div_mul, ← Nat.pow_succ]
        exact Nat.div_le_div_left (Nat.pow_le_pow_right (by omega) (by omega)) (by positivity)
      omega
    · subst same
      exact different other.symm
    · obtain ⟨gap, rfl⟩ : ∃ gap, k = n + 1 + gap := ⟨k - (n + 1), by omega⟩
      have deeper : c / 2 ^ (n + 1 + gap + 1) ≤ c / 2 ^ (n + 1) / 2 := by
        rw [Nat.div_div_eq_div_mul, ← Nat.pow_succ]
        exact Nat.div_le_div_left (Nat.pow_le_pow_right (by omega) (by omega)) (by positivity)
      omega
  · intro same
    have deeper : c / 2 ^ (n + 1) ≤ c / 2 := by
      rw [Nat.pow_succ', ← Nat.div_div_eq_div_mul]
      exact Nat.div_le_self _ _
    rw [same] at half
    omega

theorem Node.sibling_node (node : Node order c) (notRoot : c ≠ 1) :
    Node order (sibling c) ∧ height order (sibling c) = height order c := by
  have inner : 1 < height order (c / 2) := by
    rw [node.height_parent notRoot]
    have := node.height_pos
    omega
  have parent := node.parent notRoot
  refine ⟨parent.below inner sibling_half, ?_⟩
  rw [height_child order parent.1 sibling_half, node.height_parent notRoot, Nat.add_sub_cancel]

theorem Node.of_above {a : Nat} (node : Node order c) (above : Above a c) : Node order a :=
  ⟨above.1, by have := above.le_half; have := node.2; omega⟩

theorem Above.ne (above : Above a c) : a ≠ c := by
  have := above.le_half
  have := above.1
  omega

/-- An ancestor is as many levels higher as it is steps away. -/
theorem Above.height_eq (above : Above a c) (node : Node order c) :
    ∃ n, c / 2 ^ (n + 1) = a ∧ height order a = height order c + (n + 1) := by
  obtain ⟨positive, n, under⟩ := above
  have sizes := size_div_pow c (n + 1)
  have aSize := Nat.size_pos.mpr positive
  have cSize := node.size_le
  rw [under] at sizes
  refine ⟨n, under, ?_⟩
  unfold height
  omega

end Path

/-! ## Leaves -/

/-- The leaf is at or below node `i`. -/
def Covers (order i leaf : Nat) : Prop := leaf / 2 ^ (height order i - 1) = i

section Leaves

variable {order i j leaf : Nat}

theorem covers_iff : Covers order i leaf ↔
    i * 2 ^ (height order i - 1) ≤ leaf ∧ leaf < (i + 1) * 2 ^ (height order i - 1) := by
  unfold Covers
  rw [Nat.div_eq_iff (by positivity), Nat.add_mul, Nat.one_mul]
  have : 0 < 2 ^ (height order i - 1) := by positivity
  omega

theorem Covers.of_above (covers : Covers order i leaf) (node : Node order i) (above : Above j i) :
    Covers order j leaf := by
  obtain ⟨n, under, higher⟩ := above.height_eq node
  have positive := node.height_pos
  unfold Covers at covers ⊢
  rw [higher, show height order i + (n + 1) - 1 = height order i - 1 + (n + 1) by omega,
    Nat.pow_add, ← Nat.div_div_eq_div_mul, covers, under]

private theorem above_of_covers (node : Node order i) (other : Node order j)
    (covers : Covers order i leaf) (covers' : Covers order j leaf)
    (lower : height order i ≤ height order j) : i = j ∨ Above j i := by
  have positive := node.height_pos
  unfold Covers at covers covers'
  rw [show height order j - 1 = height order i - 1 + (height order j - height order i) by omega,
    Nat.pow_add, ← Nat.div_div_eq_div_mul, covers] at covers'
  cases gap : height order j - height order i with
  | zero =>
      rw [gap, Nat.pow_zero, Nat.div_one] at covers'
      exact .inl covers'
  | succ n =>
      rw [gap] at covers'
      exact .inr ⟨other.1, n, covers'⟩

/-- Nodes over a common leaf are on one path. -/
theorem related_of_covers (node : Node order i) (other : Node order j)
    (covers : Covers order i leaf) (covers' : Covers order j leaf) :
    i = j ∨ Above i j ∨ Above j i := by
  rcases Nat.le_total (height order i) (height order j) with lower | higher
  · rcases above_of_covers node other covers covers' lower with same | above
    · exact .inl same
    · exact .inr (.inr above)
  · rcases above_of_covers other node covers' covers higher with same | above
    · exact .inl same.symm
    · exact .inr (.inl above)

theorem covers_first (order i : Nat) : Covers order i (i * 2 ^ (height order i - 1)) :=
  Nat.mul_div_cancel _ (by positivity)

/-- The leaves at and below a node are leaves of the tree. -/
theorem Node.leaf_bounds (node : Node order i) (covers : Covers order i leaf) :
    2 ^ (order - 1) ≤ leaf ∧ leaf < 2 ^ order := by
  obtain ⟨first, last⟩ := covers_iff.mp covers
  have sizes := node.size_le
  have sizePositive := node.size_pos
  have low := node.low
  have high : i + 1 ≤ 2 ^ i.size := Nat.lt_size_self i
  have lowest : 2 ^ (order - 1) = 2 ^ (i.size - 1) * 2 ^ (height order i - 1) := by
    rw [← Nat.pow_add]
    congr 1
    unfold height
    omega
  have highest : 2 ^ order = 2 ^ i.size * 2 ^ (height order i - 1) := by
    rw [← Nat.pow_add]
    congr 1
    unfold height
    omega
  constructor
  · rw [lowest]
    exact le_trans (Nat.mul_le_mul_right _ low) first
  · rw [highest]
    exact lt_of_lt_of_le last (Nat.mul_le_mul_right _ high)

end Leaves

end Lupin.HeapIndex
