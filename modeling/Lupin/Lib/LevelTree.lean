import Lupin.Lib.HeapIndex

/-!
# Levels of a binary tree with taken nodes

Nodes of a complete binary tree are numbered as in a heap: the root is 1, the
children of `i` are `2 * i` and `2 * i + 1`. The level of a node says how far
below it the nearest free subtree starts: 0 for a node with nothing taken at or
below it, its height for one with nothing free. Levels are computed bottom-up,
so a change of one node shows on the path to the root only.
-/

namespace Lupin.LevelTree

open Lupin.HeapIndex

/-- The level of a node from those of its children. -/
def combine (left right : Nat) : Nat := if left = 0 ∧ right = 0 then 0 else min left right + 1

/-- The level of node `i` with so many levels at and below it. -/
def level (taken : Nat → Bool) : (levels i : Nat) → Nat
  | 0, _ => 0
  | levels + 1, i =>
      if taken i then levels + 1
      else combine (level taken levels (2 * i)) (level taken levels (2 * i + 1))

/-- Nothing is taken in these levels of the subtree at `i`. -/
def Free (taken : Nat → Bool) (levels i : Nat) : Prop :=
  ∀ j n, n < levels → j / 2 ^ n = i → taken j = false

variable {taken taken' : Nat → Bool} {levels i k : Nat}

theorem combine_eq_zero_iff {left right : Nat} : combine left right = 0 ↔ left = 0 ∧ right = 0 := by
  unfold combine
  split
  · simp_all
  · simp_all

theorem combine_comm (left right : Nat) : combine left right = combine right left := by
  unfold combine
  split <;> split <;> omega

theorem combine_le {left right : Nat} (leftBound : left ≤ levels) (rightBound : right ≤ levels) :
    combine left right ≤ levels + 1 := by
  unfold combine
  split <;> omega

theorem level_le (taken : Nat → Bool) (levels i : Nat) : level taken levels i ≤ levels := by
  induction levels generalizing i with
  | zero => exact Nat.le_refl _
  | succ levels inductionHypothesis =>
      unfold level
      split
      · exact Nat.le_refl _
      · exact combine_le (inductionHypothesis _) (inductionHypothesis _)

theorem level_of_taken (isTaken : taken i = true) : level taken levels i = levels := by
  cases levels with
  | zero => rfl
  | succ levels => simp [level, isTaken]

theorem level_succ (notTaken : taken i = false) :
    level taken (levels + 1) i =
      combine (level taken levels (2 * i)) (level taken levels (2 * i + 1)) := by
  simp [level, notTaken]

/-- Levels depend on the nodes of the subtree only. -/
theorem level_congr (same : ∀ j n, n < levels → j / 2 ^ n = i → taken j = taken' j) :
    level taken levels i = level taken' levels i := by
  induction levels generalizing i with
  | zero => rfl
  | succ levels inductionHypothesis =>
      have below : ∀ child, child / 2 = i → ∀ j n, n < levels → j / 2 ^ n = child →
          taken j = taken' j := by
        intro child isChild j n bound under
        refine same j (n + 1) (by omega) ?_
        rw [Nat.pow_succ, ← Nat.div_div_eq_div_mul, under, isChild]
      unfold level
      rw [same i 0 (by omega) (by simp), inductionHypothesis (below (2 * i) (by omega)),
        inductionHypothesis (below (2 * i + 1) (by omega))]

theorem Free.child (free : Free taken (levels + 1) i) {child : Nat} (isChild : child / 2 = i) :
    Free taken levels child := by
  intro j n bound under
  refine free j (n + 1) (by omega) ?_
  rw [Nat.pow_succ, ← Nat.div_div_eq_div_mul, under, isChild]

theorem free_succ (notTaken : taken i = false) (left : Free taken levels (2 * i))
    (right : Free taken levels (2 * i + 1)) : Free taken (levels + 1) i := by
  intro j n bound under
  cases n with
  | zero =>
      rw [Nat.pow_zero, Nat.div_one] at under
      rw [under, notTaken]
  | succ n =>
      rw [Nat.pow_succ, ← Nat.div_div_eq_div_mul] at under
      have side : j / 2 ^ n = 2 * i ∨ j / 2 ^ n = 2 * i + 1 := by omega
      rcases side with side | side
      · exact left j n (by omega) side
      · exact right j n (by omega) side

/-- Level 0 is a free subtree. -/
theorem level_eq_zero_iff : level taken levels i = 0 ↔ Free taken levels i := by
  induction levels generalizing i with
  | zero => simp [level, Free]
  | succ levels inductionHypothesis =>
      cases isTaken : taken i with
      | true =>
          constructor
          · intro zero
            rw [level_of_taken isTaken] at zero
            omega
          · intro free
            rw [free i 0 (by omega) (by simp)] at isTaken
            exact absurd isTaken Bool.false_ne_true
      | false =>
          rw [level_succ isTaken, combine_eq_zero_iff, inductionHypothesis, inductionHypothesis]
          constructor
          · rintro ⟨left, right⟩
            exact free_succ isTaken left right
          · intro free
            exact ⟨free.child (by omega), free.child (by omega)⟩

/-! ## Changes along a path -/

section Path

variable {a b c p h : Nat}

/-- The level of a parent that is not taken, from either child. -/
theorem level_half (positive : 1 < c) (notTaken : taken (c / 2) = false) :
    level taken (h + 1) (c / 2) = combine (level taken h c) (level taken h (sibling c)) := by
  rw [level_succ notTaken]
  unfold sibling
  split
  · rw [show 2 * (c / 2) = c by omega]
  · rw [show 2 * (c / 2) + 1 = c by omega, show 2 * (c / 2) = c - 1 by omega, combine_comm]

/-- A change of one node shows at the node and above it only. -/
theorem level_eq_of_not_above (agree : ∀ j, j ≠ p → taken j = taken' j) (positive : 0 < b)
    (notAbove : ¬ Above b p) (different : b ≠ p) : level taken h b = level taken' h b := by
  refine level_congr fun j n _ under => agree j ?_
  rintro rfl
  cases n with
  | zero => exact different (by simpa using under.symm)
  | succ n => exact notAbove ⟨positive, n, under⟩

/-- Where a change does not show at a node of the path, it does not show above it. -/
theorem level_half_eq_of_eq (agree : ∀ j, j ≠ p → taken j = taken' j) (above : Above a p)
    (notRoot : 1 < a) (notTaken : taken (a / 2) = false)
    (same : level taken h a = level taken' h a) :
    level taken (h + 1) (a / 2) = level taken' (h + 1) (a / 2) := by
  have parentAbove := above.parent (by omega)
  have different : a / 2 ≠ p := by
    have := parentAbove.le_half
    have := parentAbove.1
    omega
  obtain ⟨notAbove, siblingDifferent⟩ := above.not_above_sibling notRoot
  have siblingPositive : 0 < sibling a := by
    have := sibling_half (c := a)
    omega
  rw [level_half notRoot notTaken, level_half notRoot (agree _ different ▸ notTaken), same,
    level_eq_of_not_above agree siblingPositive notAbove siblingDifferent]

end Path

/-! ## Searching downwards -/

/-- A node with a free subtree below it is not taken itself. -/
theorem not_taken_of_level_le (low : level taken levels i ≤ k) (bound : k < levels) :
    taken i = false := by
  cases isTaken : taken i with
  | false => rfl
  | true =>
      rw [level_of_taken isTaken] at low
      omega

/-- A free subtree `k + 1` levels down is `k` levels below one of the children. -/
theorem level_child_le (low : level taken (levels + 1) i ≤ k + 1) (bound : k < levels) :
    level taken levels (2 * i) ≤ k ∨ level taken levels (2 * i + 1) ≤ k := by
  rw [level_succ (not_taken_of_level_le low (by omega))] at low
  unfold combine at low
  split at low
  · omega
  · omega

/-- A free subtree `k` levels down, under nodes that are not taken, bounds the level. -/
theorem level_le_of_free {j : Nat} (under : j / 2 ^ k = i) (bound : k < levels)
    (openPath : ∀ n, 0 < n → n ≤ k → taken (j / 2 ^ n) = false)
    (free : Free taken (levels - k) j) : level taken levels i ≤ k := by
  induction k generalizing levels i with
  | zero =>
      rw [Nat.pow_zero, Nat.div_one] at under
      subst under
      exact Nat.le_of_eq (level_eq_zero_iff.mpr (by simpa using free))
  | succ k inductionHypothesis =>
      obtain ⟨lower, rfl⟩ : ∃ lower, levels = lower + 1 := ⟨levels - 1, by omega⟩
      have notTaken := openPath (k + 1) (by omega) (Nat.le_refl _)
      rw [under] at notTaken
      rw [Nat.pow_succ, ← Nat.div_div_eq_div_mul] at under
      have child : level taken lower (j / 2 ^ k) ≤ k := inductionHypothesis rfl (by omega)
        (fun n positive within => openPath n positive (by omega))
        (by rw [show lower + 1 - (k + 1) = lower - k by omega] at free; exact free)
      rw [level_succ notTaken]
      have side : j / 2 ^ k = 2 * i ∨ j / 2 ^ k = 2 * i + 1 := by omega
      rcases side with side | side <;> rw [side] at child <;> unfold combine <;> split <;> omega

/-! ## Sets of taken blocks -/

/-- Taken nodes of a tree, none of them below another. -/
structure BlockSet (order : Nat) where
  taken : Nat → Bool
  node : ∀ i, taken i = true → Node order i
  apart : ∀ i j, taken i = true → taken j = true → ¬ Above i j

namespace BlockSet

variable {order p leaf : Nat}

/-- No taken node is on a path through `p`. -/
def Vacant (s : BlockSet order) (p : Nat) : Prop :=
  ∀ i, s.taken i = true → i ≠ p ∧ ¬ Above i p ∧ ¬ Above p i

/-- Some taken node is over the leaf. -/
def Covered (s : BlockSet order) (leaf : Nat) : Prop :=
  ∃ i, s.taken i = true ∧ Covers order i leaf

def empty (order : Nat) : BlockSet order where
  taken _ := false
  node _ taken := absurd taken Bool.false_ne_true
  apart _ _ taken := absurd taken Bool.false_ne_true

/-- Take a vacant node. -/
def insert (s : BlockSet order) (p : Nat) (node : Node order p) (vacant : s.Vacant p) :
    BlockSet order where
  taken := Function.update s.taken p true
  node i taken := by
    by_cases here : i = p
    · exact here ▸ node
    · rw [Function.update_of_ne here] at taken
      exact s.node i taken
  apart i j first second above := by
    have different := above.ne
    by_cases here : i = p
    · subst here
      rw [Function.update_of_ne different.symm] at second
      exact (vacant j second).2.2 above
    · rw [Function.update_of_ne here] at first
      by_cases there : j = p
      · subst there
        exact (vacant i first).2.1 above
      · rw [Function.update_of_ne there] at second
        exact s.apart i j first second above

/-- Give a node back. -/
def erase (s : BlockSet order) (p : Nat) : BlockSet order where
  taken := Function.update s.taken p false
  node i taken := by
    by_cases here : i = p
    · subst here
      simp at taken
    · rw [Function.update_of_ne here] at taken
      exact s.node i taken
  apart i j first second := by
    by_cases here : i = p
    · subst here
      simp at first
    · by_cases there : j = p
      · subst there
        simp at second
      · rw [Function.update_of_ne here] at first
        rw [Function.update_of_ne there] at second
        exact s.apart i j first second

variable {s : BlockSet order}

theorem Vacant.not_taken (vacant : s.Vacant p) : s.taken p = false := by
  cases isTaken : s.taken p with
  | false => rfl
  | true => exact absurd rfl (vacant p isTaken).1

theorem Vacant.open_path (vacant : s.Vacant p) {a : Nat} (above : Above a p) :
    s.taken a = false := by
  cases isTaken : s.taken a with
  | false => rfl
  | true => exact absurd above (vacant a isTaken).2.1

theorem Vacant.free (vacant : s.Vacant p) (node : Node order p) (h : Nat) :
    Free s.taken h p := by
  intro j n _ under
  cases isTaken : s.taken j with
  | false => rfl
  | true =>
      cases n with
      | zero => exact absurd (by simpa using under) (vacant j isTaken).1
      | succ n => exact absurd ⟨node.1, n, under⟩ (vacant j isTaken).2.2

/-- A free node under nodes that are not taken is vacant. -/
theorem vacant_of_free (node : Node order p) (free : Free s.taken (height order p) p)
    (openPath : ∀ a, Above a p → s.taken a = false) : s.Vacant p := by
  intro i isTaken
  refine ⟨?_, ?_, ?_⟩
  · rintro rfl
    rw [free i 0 node.height_pos (by simp)] at isTaken
    exact Bool.false_ne_true isTaken
  · intro above
    rw [openPath i above] at isTaken
    exact Bool.false_ne_true isTaken
  · intro below
    obtain ⟨n, under, higher⟩ := below.height_eq (s.node i isTaken)
    have := (s.node i isTaken).height_pos
    rw [free i (n + 1) (by omega) under] at isTaken
    exact Bool.false_ne_true isTaken

/-- A node is vacant when none of its leaves is covered. -/
theorem vacant_of_not_covered (node : Node order p)
    (uncovered : ∀ leaf, Covers order p leaf → ¬ s.Covered leaf) : s.Vacant p := by
  intro i isTaken
  have inTree := s.node i isTaken
  have first := covers_first order i
  refine ⟨?_, ?_, ?_⟩
  · rintro rfl
    exact uncovered _ first ⟨i, isTaken, first⟩
  · intro above
    have pFirst := covers_first order p
    exact uncovered _ pFirst ⟨i, isTaken, pFirst.of_above node above⟩
  · intro below
    exact uncovered _ (first.of_above inTree below) ⟨i, isTaken, first⟩

/-- No leaf of a vacant node is covered. -/
theorem Vacant.not_covered (vacant : s.Vacant p) (node : Node order p)
    (covers : Covers order p leaf) : ¬ s.Covered leaf := by
  rintro ⟨i, isTaken, covering⟩
  obtain ⟨different, notAbove, notBelow⟩ := vacant i isTaken
  rcases related_of_covers (s.node i isTaken) node covering covers with same | above | below
  · exact different same
  · exact notAbove above
  · exact notBelow below

theorem covered_insert {node : Node order p} {vacant : s.Vacant p} :
    (s.insert p node vacant).Covered leaf ↔ Covers order p leaf ∨ s.Covered leaf := by
  constructor
  · rintro ⟨i, isTaken, covering⟩
    by_cases here : i = p
    · exact .inl (here ▸ covering)
    · change Function.update s.taken p true i = true at isTaken
      rw [Function.update_of_ne here] at isTaken
      exact .inr ⟨i, isTaken, covering⟩
  · rintro (covering | ⟨i, isTaken, covering⟩)
    · refine ⟨p, ?_, covering⟩
      change Function.update s.taken p true p = true
      rw [Function.update_self]
    · refine ⟨i, ?_, covering⟩
      change Function.update s.taken p true i = true
      by_cases here : i = p
      · rw [here, Function.update_self]
      · rw [Function.update_of_ne here, isTaken]

/-- Different taken nodes have no leaf in common. -/
theorem eq_of_covers {i j : Nat} (first : s.taken i = true) (second : s.taken j = true)
    (covering : Covers order i leaf) (covering' : Covers order j leaf) : i = j := by
  rcases related_of_covers (s.node i first) (s.node j second) covering covering' with
    same | above | below
  · exact same
  · exact absurd above (s.apart i j first second)
  · exact absurd below (s.apart j i second first)

end BlockSet

end Lupin.LevelTree
