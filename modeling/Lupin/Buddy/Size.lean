import Mathlib.Tactic.Ring
import Lupin.Lib.HeapIndex

/-!
# Sizes in the buddy allocator

Powers of two, the order of the tree for a memory size, and the bytes its
metadata takes. `size_t` arithmetic is on `Nat`, with the wrap-around written out
where a value can reach it.
-/

namespace Lupin.Buddy

open Lupin.HeapIndex

/-- The tables `all_set` and `count` of `highest_bit_position`. -/
def bitSteps : List (Nat × Nat) :=
  [(4294967295, 32), (65535, 16), (255, 8), (15, 4), (7, 2), (3, 1), (1, 1)]

/-- The loop of `highest_bit_position`: `value` and `result` after each table row. -/
def highestBitLoop : List (Nat × Nat) → Nat → Nat → Nat
  | [], value, result => result + value
  | (allSet, count) :: rest, value, result =>
      if value ≥ allSet then highestBitLoop rest (value / 2 ^ count) (result + count)
      else highestBitLoop rest value result

/-- `highest_bit_position`. -/
def highestBitPosition (value : Nat) : Nat := highestBitLoop bitSteps value 0

/-- `ceiling_power_of_two`. -/
def ceilingPowerOfTwo (value : Nat) : Nat :=
  let value := if value = 0 then 1 else value
  2 ^ (highestBitPosition ((value + value + 2 ^ 64 - 1) % 2 ^ 64) - 1) % 2 ^ 64

/-- `is_valid_alignment`. -/
def isValidAlignment (alignment : Nat) : Bool := ceilingPowerOfTwo alignment == alignment

/-- `buddy_tree_order_for_memory`. -/
def buddyTreeOrderForMemory (memorySize alignment : Nat) : Nat :=
  highestBitPosition (ceilingPowerOfTwo (memorySize / alignment))

/-- The loop of `size_for_order`, with `rounds` rounds to go. -/
def sizeForOrderLoop : (rounds order multi result : Nat) → Nat
  | 0, _, _, result => result
  | rounds + 1, order, multi, result =>
      sizeForOrderLoop rounds (order - 1) (multi * 2) (result + order * multi)

/-- `size_for_order`, for `target` of at most `order`. -/
def sizeForOrder (order target : Nat) : Nat := sizeForOrderLoop (order - target) order 1 0

/-- `bitset_sizeof`. -/
def bitsetSizeof (elements : Nat) : Nat := (elements + 7) / 8

/-- `buddy_tree_sizeof`; `struct buddy_tree` has 24 bytes before its data. -/
def buddyTreeSizeof (order : Nat) : Nat :=
  let bitsetSize := bitsetSizeof (sizeForOrder order 0)
  24 + (bitsetSize + bitsetSize % 8) + (order + 2) * 8

/-! ## Powers of two -/

/-- What is left of the value after the rows of a table. -/
private def leftOver (rows : List (Nat × Nat)) (value : Nat) : Nat :=
  rows.foldl (fun value row => if value ≥ row.1 then value / 2 ^ row.2 else value) value

/-- A row whose bits are all set holds at least as many bits as it moves. -/
private theorem count_le_size {allSet count value : Nat} (ones : 2 ^ count - 1 ≤ allSet)
    (large : allSet ≤ value) : count ≤ value.size := by
  by_contra less
  obtain ⟨previous, rfl⟩ := Nat.exists_eq_succ_of_ne_zero (by omega : count ≠ 0)
  have bound : value < 2 ^ previous := Nat.size_le.mp (by omega)
  have double : 2 ^ (previous + 1) = 2 ^ previous * 2 := Nat.pow_succ _ _
  rw [Nat.succ_eq_add_one] at ones
  omega

/-- The rows move bits from `value` to `result` without losing one. -/
private theorem highestBitLoop_eq (rows : List (Nat × Nat))
    (ones : ∀ row ∈ rows, 2 ^ row.2 - 1 ≤ row.1) (value result : Nat)
    (ends : leftOver rows value ≤ 1) :
    highestBitLoop rows value result = result + value.size := by
  induction rows generalizing value result with
  | nil =>
      change value ≤ 1 at ends
      have small : value = 0 ∨ value = 1 := by omega
      rcases small with rfl | rfl <;> simp [highestBitLoop]
  | cons row rest inductionHypothesis =>
      obtain ⟨allSet, count⟩ := row
      have later := inductionHypothesis fun row member => ones row (List.mem_cons_of_mem _ member)
      by_cases large : value ≥ allSet
      · have rest : leftOver rest (value / 2 ^ count) ≤ 1 := by
          simpa [leftOver, large] using ends
        have moved := count_le_size (ones (allSet, count) List.mem_cons_self) large
        simp only [highestBitLoop, if_pos large]
        rw [later _ _ rest, size_div_pow]
        omega
      · have rest : leftOver rest value ≤ 1 := by
          simpa [leftOver, large] using ends
        simp only [highestBitLoop, if_neg large]
        exact later _ _ rest

private theorem leftOver_bitSteps {value : Nat} (bound : value < 2 ^ 64) :
    leftOver bitSteps value ≤ 1 := by
  simp only [leftOver, bitSteps, List.foldl_cons, List.foldl_nil]
  generalize h1 : (if value ≥ 4294967295 then value / 2 ^ 32 else value) = v1
  have b1 : v1 < 2 ^ 32 := by subst h1; split <;> omega
  generalize h2 : (if v1 ≥ 65535 then v1 / 2 ^ 16 else v1) = v2
  have b2 : v2 < 2 ^ 16 := by subst h2; split <;> omega
  generalize h3 : (if v2 ≥ 255 then v2 / 2 ^ 8 else v2) = v3
  have b3 : v3 < 2 ^ 8 := by subst h3; split <;> omega
  generalize h4 : (if v3 ≥ 15 then v3 / 2 ^ 4 else v3) = v4
  have b4 : v4 < 2 ^ 4 := by subst h4; split <;> omega
  generalize h5 : (if v4 ≥ 7 then v4 / 2 ^ 2 else v4) = v5
  have b5 : v5 < 7 := by subst h5; split <;> omega
  generalize h6 : (if v5 ≥ 3 then v5 / 2 ^ 1 else v5) = v6
  have b6 : v6 < 4 := by subst h6; split <;> omega
  split <;> omega

/-- `highest_bit_position` counts the bits of a 64 bit value. -/
theorem highestBitPosition_eq {value : Nat} (bound : value < 2 ^ 64) :
    highestBitPosition value = value.size := by
  unfold highestBitPosition
  rw [highestBitLoop_eq bitSteps (by decide) value 0 (leftOver_bitSteps bound), Nat.zero_add]

/-- `ceiling_power_of_two` is the least power of two that is not smaller. -/
theorem ceilingPowerOfTwo_eq {value : Nat} (positive : 0 < value) (bound : value ≤ 2 ^ 63) :
    ceilingPowerOfTwo value = 2 ^ (value - 1).size := by
  have nonzero : value ≠ 0 := by omega
  have noWrap : (value + value + 2 ^ 64 - 1) % 2 ^ 64 = 2 * (value - 1) + 1 := by omega
  have odd : (2 * (value - 1) + 1).size = (value - 1).size + 1 := by
    apply le_antisymm
    · have small := Nat.lt_size_self (value - 1)
      rw [Nat.size_le, Nat.pow_succ]
      omega
    · rw [Nat.succ_le_iff, Nat.lt_size]
      by_cases one : value - 1 = 0
      · simp [one]
      · have positiveSize := Nat.size_pos.mpr (by omega : 0 < value - 1)
        have large : 2 ^ ((value - 1).size - 1) ≤ value - 1 := by
          rw [← Nat.lt_size]
          omega
        have split : 2 ^ (value - 1).size = 2 ^ ((value - 1).size - 1) * 2 := by
          rw [← Nat.pow_succ, Nat.succ_eq_add_one, Nat.sub_add_cancel positiveSize]
        omega
  have exponent : (value - 1).size ≤ 63 := Nat.size_le.mpr (by omega)
  have inRange : 2 ^ (value - 1).size < 2 ^ 64 := Nat.pow_lt_pow_right (by omega) (by omega)
  unfold ceilingPowerOfTwo
  simp only [nonzero, if_false]
  have bits : highestBitPosition (2 * (value - 1) + 1) = (value - 1).size + 1 := by
    rw [highestBitPosition_eq (by omega), odd]
  rw [noWrap, bits, Nat.add_sub_cancel, Nat.mod_eq_of_lt inRange]

/-- The order of the tree over a number of blocks. -/
theorem buddyTreeOrderForMemory_eq {memorySize alignment : Nat}
    (positive : 0 < memorySize / alignment) (bound : memorySize / alignment ≤ 2 ^ 63) :
    buddyTreeOrderForMemory memorySize alignment = (memorySize / alignment - 1).size + 1 := by
  have exponent : (memorySize / alignment - 1).size ≤ 63 := Nat.size_le.mpr (by omega)
  unfold buddyTreeOrderForMemory
  rw [ceilingPowerOfTwo_eq positive bound,
    highestBitPosition_eq (Nat.pow_lt_pow_right (by omega) (by omega)), Nat.size_pow]

/-! ## The bits of a tree -/

private theorem sizeForOrderLoop_succ (rounds order multi result : Nat) :
    sizeForOrderLoop (rounds + 1) order multi result =
      sizeForOrderLoop rounds order multi result + (order - rounds) * (multi * 2 ^ rounds) := by
  induction rounds generalizing order multi result with
  | zero => simp [sizeForOrderLoop]
  | succ rounds inductionHypothesis =>
      rw [sizeForOrderLoop, inductionHypothesis, sizeForOrderLoop]
      congr 1
      rw [Nat.sub_sub, Nat.add_comm 1 rounds, Nat.pow_succ, Nat.mul_assoc, Nat.mul_comm 2]

/-- One level of the tree more: `target + 1` bits for each of its nodes. -/
theorem sizeForOrder_step {order target : Nat} (below : target < order) :
    sizeForOrder order target =
      sizeForOrder order (target + 1) + (target + 1) * 2 ^ (order - (target + 1)) := by
  obtain ⟨rounds, rfl⟩ : ∃ rounds, order = target + 1 + rounds := ⟨order - (target + 1), by omega⟩
  unfold sizeForOrder
  rw [show target + 1 + rounds - target = rounds + 1 by omega, Nat.add_sub_cancel_left,
    sizeForOrderLoop_succ, Nat.one_mul, Nat.add_sub_cancel]

/-- The bits above the level whose nodes take `target` bits. -/
theorem sizeForOrder_eq {order target : Nat} (below : target ≤ order) :
    sizeForOrder order target + order + 2 = (target + 2) * 2 ^ (order - target) := by
  obtain ⟨levels, rfl⟩ : ∃ levels, order = target + levels := ⟨order - target, by omega⟩
  induction levels generalizing target with
  | zero => simp [sizeForOrder, sizeForOrderLoop]
  | succ levels inductionHypothesis =>
      have deeper := @inductionHypothesis (target + 1) (by omega)
      rw [show target + 1 + levels = target + (levels + 1) by omega] at deeper
      rw [sizeForOrder_step (by omega)]
      rw [show target + (levels + 1) - (target + 1) = levels by omega] at deeper ⊢
      rw [show target + (levels + 1) - target = levels + 1 by omega, Nat.pow_succ]
      have expand : (target + 1 + 2) * 2 ^ levels =
          (target + 1) * 2 ^ levels + 2 * 2 ^ levels := by rw [← Nat.add_mul]
      have expand' : (target + 2) * (2 ^ levels * 2) =
          2 * ((target + 1) * 2 ^ levels) + 2 * 2 ^ levels := by ring
      omega

end Lupin.Buddy
