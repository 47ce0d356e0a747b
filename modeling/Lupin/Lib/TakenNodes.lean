import Mathlib.Tactic.Ring
import Lupin.Lib.LevelTree

/-!
# The taken nodes of a binary tree in order

A walk that visits parents before children and left before right comes to the taken nodes in
the order of the leaves they cover.
-/

namespace Lupin.LevelTree

open Lupin.HeapIndex

/-- The taken nodes in these levels of the subtree at `i`. -/
def takenNodes (taken : Nat → Bool) : (levels i : Nat) → List Nat
  | 0, _ => []
  | levels + 1, i =>
      (if taken i then [i] else []) ++
        (takenNodes taken levels (2 * i) ++ takenNodes taken levels (2 * i + 1))

/-- All leaves of `i` are before those of `j`. -/
def Before (order i j : Nat) : Prop :=
  (i + 1) * 2 ^ (height order i - 1) ≤ j * 2 ^ (height order j - 1)

section Members

variable {taken : Nat → Bool} {levels i j : Nat}

theorem mem_takenNodes :
    j ∈ takenNodes taken levels i ↔ taken j = true ∧ ∃ n, n < levels ∧ j / 2 ^ n = i := by
  induction levels generalizing i with
  | zero => simp [takenNodes]
  | succ levels inductionHypothesis =>
      have here : j ∈ (if taken i then [i] else []) ↔ taken j = true ∧ j = i := by
        split
        next isTaken =>
          rw [List.mem_singleton]
          exact ⟨fun same => ⟨same ▸ isTaken, same⟩, (·.2)⟩
        next notTaken =>
          simp only [List.not_mem_nil, false_iff]
          rintro ⟨isTaken, rfl⟩
          exact notTaken isTaken
      rw [takenNodes, List.mem_append, List.mem_append, here, inductionHypothesis,
        inductionHypothesis]
      constructor
      · rintro (⟨isTaken, rfl⟩ | ⟨isTaken, n, bound, under⟩ | ⟨isTaken, n, bound, under⟩)
        · exact ⟨isTaken, 0, by omega, by simp⟩
        all_goals
          refine ⟨isTaken, n + 1, by omega, ?_⟩
          rw [Nat.pow_succ, ← Nat.div_div_eq_div_mul, under]
          omega
      · rintro ⟨isTaken, n, bound, under⟩
        cases n with
        | zero => exact .inl ⟨isTaken, by simpa using under⟩
        | succ n =>
            rw [Nat.pow_succ, ← Nat.div_div_eq_div_mul] at under
            rcases Nat.mod_two_eq_zero_or_one (j / 2 ^ n) with even | odd
            · exact .inr (.inl ⟨isTaken, n, by omega, by omega⟩)
            · exact .inr (.inr ⟨isTaken, n, by omega, by omega⟩)

theorem takenNodes_of_free (free : Free taken levels i) : takenNodes taken levels i = [] := by
  rw [List.eq_nil_iff_forall_not_mem]
  intro j member
  obtain ⟨isTaken, n, bound, under⟩ := mem_takenNodes.mp member
  rw [free j n bound under] at isTaken
  exact Bool.false_ne_true isTaken

end Members

section Order

variable {order levels p i j : Nat} {s : BlockSet order}

/-- Nothing is taken below a taken node. -/
theorem BlockSet.free_below (isTaken : s.taken p = true) {child : Nat} (isChild : child / 2 = p) :
    Free s.taken levels child := by
  intro j n _ under
  by_contra other
  have above : Above p j := by
    refine ⟨(s.node p isTaken).1, n, ?_⟩
    rw [Nat.pow_succ, ← Nat.div_div_eq_div_mul, under, isChild]
  exact s.apart p j isTaken (by simpa using other) above

/-- A node at or below `p` covers leaves of `p` only. -/
theorem within_of_under {n : Nat} (positive : 0 < p) (bound : n < height order p)
    (under : j / 2 ^ n = p) :
    p * 2 ^ (height order p - 1) ≤ j * 2 ^ (height order j - 1) ∧
      (j + 1) * 2 ^ (height order j - 1) ≤ (p + 1) * 2 ^ (height order p - 1) := by
  have lower : p * 2 ^ n ≤ j := by rw [← under]; exact Nat.div_mul_le_self j _
  have upper : j + 1 ≤ (p + 1) * 2 ^ n := by
    rw [← under]
    exact Nat.succ_le_of_lt (Nat.lt_mul_of_div_lt (Nat.lt_succ_self _) (by positivity))
  have heights : height order p = height order j + n := by
    have sizes := size_div_pow j n
    have := Nat.size_pos.mpr positive
    rw [under] at sizes
    unfold height at bound ⊢
    omega
  have power : 2 ^ (height order p - 1) = 2 ^ n * 2 ^ (height order j - 1) := by
    rw [← Nat.pow_add]
    congr 1
    omega
  rw [power, ← Nat.mul_assoc, ← Nat.mul_assoc]
  exact ⟨Nat.mul_le_mul_right _ lower, Nat.mul_le_mul_right _ upper⟩

/-- The taken nodes are listed from left to right. -/
theorem takenNodes_pairwise (positive : 0 < p) (isHeight : height order p = levels) :
    (takenNodes s.taken levels p).Pairwise (Before order) := by
  induction levels generalizing p with
  | zero => exact List.Pairwise.nil
  | succ levels inductionHypothesis =>
      have leftHeight := height_child order positive (by omega : 2 * p / 2 = p)
      have rightHeight := height_child order positive (by omega : (2 * p + 1) / 2 = p)
      rw [takenNodes]
      by_cases isTaken : s.taken p = true
      · rw [takenNodes_of_free (BlockSet.free_below isTaken (by omega : 2 * p / 2 = p)),
          takenNodes_of_free (BlockSet.free_below isTaken (by omega : (2 * p + 1) / 2 = p)),
          if_pos isTaken]
        exact List.pairwise_singleton _ _
      · rw [if_neg isTaken, List.nil_append, List.pairwise_append]
        refine ⟨inductionHypothesis (by omega) (by omega),
          inductionHypothesis (by omega) (by omega), fun i left j right => ?_⟩
        obtain ⟨_, n, bound, under⟩ := mem_takenNodes.mp left
        obtain ⟨_, k, bound', under'⟩ := mem_takenNodes.mp right
        have first := @within_of_under order _ i _ (by omega) (by omega) under
        have second := @within_of_under order _ j _ (by omega) (by omega) under'
        rw [leftHeight] at first
        rw [rightHeight] at second
        exact first.2.trans second.1

theorem Before.ne (before : Before order i j) : i ≠ j := by
  rintro rfl
  have : 0 < 2 ^ (height order i - 1) := by positivity
  unfold Before at before
  rw [Nat.add_mul] at before
  omega

/-- At the root the taken nodes are all there are. -/
theorem mem_takenNodes_root : j ∈ takenNodes s.taken order 1 ↔ s.taken j = true := by
  rw [mem_takenNodes, and_iff_left_iff_imp]
  intro isTaken
  have node := s.node j isTaken
  have low := node.low
  have sizePositive := node.size_pos
  have sizeBound := node.size_le
  have high : j < 2 ^ j.size := Nat.lt_size_self j
  refine ⟨j.size - 1, by omega, ?_⟩
  have double : 2 ^ j.size = 2 * 2 ^ (j.size - 1) := by
    rw [← Nat.pow_succ', Nat.succ_eq_add_one, Nat.sub_add_cancel sizePositive]
  exact Nat.div_eq_of_lt_le (by omega) (by omega)

end Order

end Lupin.LevelTree
