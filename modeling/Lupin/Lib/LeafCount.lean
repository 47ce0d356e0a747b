import Mathlib.Order.Interval.Finset.Nat
import Mathlib.Tactic.Ring
import Lupin.Lib.LevelTree

/-!
# Counting the leaves of a binary tree

How many leaves of a subtree are under no taken node, from the levels of the tree and as the
number of a set of leaves.
-/

namespace Lupin.LevelTree

open Lupin.HeapIndex

/-- The leaves at and below `i` that no taken node is over. -/
def vacantLeaves (taken : Nat → Bool) : (levels i : Nat) → Nat
  | 0, _ => 0
  | 1, i => if taken i then 0 else 1
  | levels + 2, i =>
      if taken i then 0
      else vacantLeaves taken (levels + 1) (2 * i) + vacantLeaves taken (levels + 1) (2 * i + 1)

section Vacant

variable {taken : Nat → Bool} {levels i : Nat}

theorem vacantLeaves_of_free (free : level taken (levels + 1) i = 0) :
    vacantLeaves taken (levels + 1) i = 2 ^ levels := by
  induction levels generalizing i with
  | zero =>
      have notTaken := not_taken_of_level_le (le_of_eq free) (by omega)
      simp [vacantLeaves, notTaken]
  | succ levels inductionHypothesis =>
      have notTaken := not_taken_of_level_le (le_of_eq free) (by omega)
      rw [level_succ notTaken, combine_eq_zero_iff] at free
      rw [vacantLeaves, notTaken, inductionHypothesis free.1, inductionHypothesis free.2]
      simp only [Bool.false_eq_true, if_false]
      ring

theorem vacantLeaves_of_full (full : level taken levels i = levels) :
    vacantLeaves taken levels i = 0 := by
  induction levels generalizing i with
  | zero => rfl
  | succ levels inductionHypothesis =>
      cases isTaken : taken i with
      | true => cases levels <;> simp [vacantLeaves, isTaken]
      | false =>
          have left := level_le taken levels (2 * i)
          have right := level_le taken levels (2 * i + 1)
          rw [level_succ isTaken, combine] at full
          split at full
          · omega
          · cases levels with
            | zero => omega
            | succ levels =>
                rw [vacantLeaves, isTaken, inductionHypothesis (by omega),
                  inductionHypothesis (by omega)]
                rfl

theorem full_of_vacantLeaves (none : vacantLeaves taken levels i = 0) :
    level taken levels i = levels := by
  induction levels generalizing i with
  | zero => rfl
  | succ levels inductionHypothesis =>
      cases isTaken : taken i with
      | true => exact level_of_taken isTaken
      | false =>
          cases levels with
          | zero => simp [vacantLeaves, isTaken] at none
          | succ levels =>
              rw [vacantLeaves, isTaken] at none
              simp only [Bool.false_eq_true, if_false, Nat.add_eq_zero_iff] at none
              rw [level_succ isTaken, inductionHypothesis none.1, inductionHypothesis none.2,
                combine, if_neg (by omega), Nat.min_self]

theorem vacantLeaves_succ (notTaken : taken i = false) (inner : 0 < levels) :
    vacantLeaves taken (levels + 1) i =
      vacantLeaves taken levels (2 * i) + vacantLeaves taken levels (2 * i + 1) := by
  obtain ⟨levels, rfl⟩ : ∃ k, levels = k + 1 := ⟨levels - 1, by omega⟩
  rw [vacantLeaves, notTaken]
  rfl

end Vacant

/-! ## As a set of leaves -/

section Leaves

variable {order p : Nat} {s : BlockSet order}

/-- The leaves at and below a node. -/
def leavesOf (order i : Nat) : Finset Nat :=
  Finset.Ico (i * 2 ^ (height order i - 1)) ((i + 1) * 2 ^ (height order i - 1))

theorem mem_leavesOf {i leaf : Nat} : leaf ∈ leavesOf order i ↔ Covers order i leaf := by
  rw [leavesOf, Finset.mem_Ico, covers_iff]

theorem card_leavesOf (order i : Nat) : (leavesOf order i).card = 2 ^ (height order i - 1) := by
  rw [leavesOf, Nat.card_Ico, Nat.add_mul, Nat.one_mul, Nat.add_sub_cancel_left]

/-- The leaves of a node are those of its children. -/
theorem leavesOf_inner (positive : 0 < p) (inner : 1 < height order p) :
    leavesOf order p = leavesOf order (2 * p) ∪ leavesOf order (2 * p + 1) ∧
      Disjoint (leavesOf order (2 * p)) (leavesOf order (2 * p + 1)) := by
  have leftHeight := height_child order positive (by omega : 2 * p / 2 = p)
  have rightHeight := height_child order positive (by omega : (2 * p + 1) / 2 = p)
  obtain ⟨k, isHeight⟩ : ∃ k, height order p = k + 2 := ⟨height order p - 2, by omega⟩
  have half : height order (2 * p) - 1 = k := by omega
  have half' : height order (2 * p + 1) - 1 = k := by omega
  have power : 2 ^ (height order p - 1) = 2 * 2 ^ k := by
    rw [isHeight, show k + 2 - 1 = k + 1 by omega]
    ring
  simp only [leavesOf, half, half', power]
  have width : 0 < 2 ^ k := by positivity
  constructor
  · ext leaf
    simp only [Finset.mem_union, Finset.mem_Ico]
    have e1 : p * (2 * 2 ^ k) = 2 * p * 2 ^ k := by ring
    have e2 : (p + 1) * (2 * 2 ^ k) = 2 * p * 2 ^ k + 2 ^ k + 2 ^ k := by ring
    have e3 : (2 * p + 1) * 2 ^ k = 2 * p * 2 ^ k + 2 ^ k := by ring
    have e4 : (2 * p + 1 + 1) * 2 ^ k = 2 * p * 2 ^ k + 2 ^ k + 2 ^ k := by ring
    rw [e1, e2, e3, e4]
    omega
  · rw [Finset.disjoint_left]
    intro leaf left right
    rw [Finset.mem_Ico] at left right
    omega

/-- The free leaves are those that no taken node covers. -/
theorem vacantLeaves_eq_card [DecidablePred s.Covered] {levels : Nat} (node : Node order p)
    (isHeight : height order p = levels) (openPath : ∀ i, Above i p → s.taken i = false) :
    vacantLeaves s.taken levels p =
      ((leavesOf order p).filter fun leaf => ¬ s.Covered leaf).card := by
  induction levels generalizing p with
  | zero => exact absurd isHeight (by have := node.height_pos; omega)
  | succ levels inductionHypothesis =>
      have positive := node.1
      cases isTaken : s.taken p with
      | true =>
          rw [vacantLeaves_of_full (level_of_taken isTaken), eq_comm, Finset.card_eq_zero,
            Finset.filter_eq_empty_iff]
          intro leaf member
          rw [not_not]
          exact ⟨p, isTaken, mem_leavesOf.mp member⟩
      | false =>
          by_cases inner : 0 < levels
          · have left : Node order (2 * p) := node.below (by omega) (by omega)
            have right : Node order (2 * p + 1) := node.below (by omega) (by omega)
            have leftHeight := height_child order positive (by omega : 2 * p / 2 = p)
            have rightHeight := height_child order positive (by omega : (2 * p + 1) / 2 = p)
            have openChild : ∀ child, child / 2 = p → ∀ i, Above i child → s.taken i = false := by
              intro child isChild i above
              by_cases here : i = p
              · rw [here, isTaken]
              · exact openPath i (isChild ▸ above.half (isChild ▸ here))
            obtain ⟨union, disjoint⟩ := leavesOf_inner positive (by omega : 1 < height order p)
            rw [vacantLeaves_succ isTaken inner,
              inductionHypothesis left (by omega) (openChild _ (by omega)),
              inductionHypothesis right (by omega) (openChild _ (by omega)), union,
              Finset.filter_union, Finset.card_union_of_disjoint]
            exact Finset.disjoint_filter_filter disjoint
          · obtain rfl : levels = 0 := by omega
            have only : leavesOf order p = {p} := by
              ext leaf
              rw [leavesOf, isHeight, Finset.mem_Ico, Finset.mem_singleton]
              omega
            have uncovered : ¬ s.Covered p := by
              rintro ⟨i, taken, covers⟩
              have self : Covers order p p := by
                rw [← mem_leavesOf, only]
                exact Finset.mem_singleton_self p
              rcases related_of_covers (s.node i taken) node covers self with same | above | below
              · rw [same, isTaken] at taken
                exact Bool.false_ne_true taken
              · rw [openPath i above] at taken
                exact Bool.false_ne_true taken
              · obtain ⟨n, _, higher⟩ := below.height_eq (s.node i taken)
                have := (s.node i taken).height_pos
                omega
            rw [only, Finset.filter_singleton, if_pos uncovered, Finset.card_singleton]
            simp [vacantLeaves, isTaken]

end Leaves

end Lupin.LevelTree
