import Mathlib.Algebra.Group.Nat.Defs
import Mathlib.Logic.Basic

/-!
# A flag in the highest bit of a word

The highest bit of a 64 bit word as a flag, and the word without it.
-/

namespace Lupin.TopBit

/-- The highest bit. -/
def topBit : BitVec 64 := 1#64 <<< 63

variable {w : BitVec 64}

theorem getLsbD_topBit (i : Nat) : topBit.getLsbD i = decide (i = 63) := by
  by_cases inside : i < 64
  · have all : ∀ j : Fin 64, topBit.getLsbD j = decide (j.val = 63) := by decide
    exact all ⟨i, inside⟩
  · rw [BitVec.getLsbD_of_ge _ _ (by omega), eq_comm, decide_eq_false_iff_not]
    omega

theorem getLsbD_not_topBit {i : Nat} (inside : i < 64) :
    (~~~topBit).getLsbD i = decide (i ≠ 63) := by
  rw [BitVec.getLsbD_not, getLsbD_topBit, decide_eq_true inside, Bool.true_and, decide_not]

theorem and_topBit_eq_zero_iff : w &&& topBit = 0 ↔ w.getLsbD 63 = false := by
  constructor
  · intro zero
    have top : (w &&& topBit).getLsbD 63 = false := by rw [zero]; decide
    rwa [BitVec.getLsbD_and, getLsbD_topBit, decide_eq_true rfl, Bool.and_true] at top
  · intro isClear
    apply BitVec.eq_of_getLsbD_eq
    intro i _
    rw [BitVec.getLsbD_and, getLsbD_topBit]
    refine Eq.trans ?_ BitVec.getLsbD_zero.symm
    by_cases top : i = 63
    · rw [top, isClear, Bool.false_and]
    · rw [decide_eq_false top, Bool.and_false]

/-- Setting the bit shows. -/
theorem or_topBit_ne (w : BitVec 64) : (w ||| topBit) &&& topBit ≠ 0 := by
  rw [ne_eq, and_topBit_eq_zero_iff, BitVec.getLsbD_or, getLsbD_topBit, decide_eq_true rfl,
    Bool.or_true]
  exact Bool.noConfusion

/-- A word whose bit is clear is its own rest. -/
theorem rest_of_clear (isClear : w &&& topBit = 0) : w &&& ~~~topBit = w := by
  rw [and_topBit_eq_zero_iff] at isClear
  apply BitVec.eq_of_getLsbD_eq
  intro i inside
  rw [BitVec.getLsbD_and, getLsbD_not_topBit inside]
  by_cases top : i = 63
  · rw [top, isClear, Bool.false_and]
  · rw [decide_eq_true top, Bool.and_true]

/-- The rest of a word has the bit clear. -/
theorem rest_clear (w : BitVec 64) : (w &&& ~~~topBit) &&& topBit = 0 := by
  rw [and_topBit_eq_zero_iff, BitVec.getLsbD_and, getLsbD_not_topBit (by decide),
    decide_eq_false (by simp), Bool.and_false]

theorem rest_rest (w : BitVec 64) : w &&& ~~~topBit &&& ~~~topBit = w &&& ~~~topBit :=
  rest_of_clear (rest_clear w)

/-- The rest does not depend on the bit. -/
theorem rest_or (w : BitVec 64) : (w ||| topBit) &&& ~~~topBit = w &&& ~~~topBit := by
  apply BitVec.eq_of_getLsbD_eq
  intro i inside
  rw [BitVec.getLsbD_and, BitVec.getLsbD_and, BitVec.getLsbD_or, getLsbD_topBit,
    getLsbD_not_topBit inside]
  by_cases top : i = 63
  · rw [decide_eq_false (not_not.mpr top), Bool.and_false, Bool.and_false]
  · rw [decide_eq_false top, Bool.or_false]

/-- Small numbers have the bit clear. -/
theorem clear_of_lt (small : w.toNat < 2 ^ 63) : w &&& topBit = 0 := by
  rw [and_topBit_eq_zero_iff, BitVec.getLsbD, Nat.testBit_lt_two_pow small]

end Lupin.TopBit
