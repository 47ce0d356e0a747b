import Mathlib.Data.BitVec
import Mathlib.Tactic.Common

/-!
# OS instance identifiers

The words that name an OS instance or carry a notification: message type in bits
63-62, OS id in 61-48, process id in 47-32, generation in 31-0.
-/

namespace Lupin.Cgroup

abbrev Word := BitVec 64

def msgTypeMask : Word := 3 <<< 62
def osIdMask : Word := 0x3fff <<< 48
def procIdMask : Word := 0xffff <<< 32
def genIdMask : Word := 0xffffffff

/-- `GET_OS_ID`. -/
def getOsId (x : Word) : BitVec 32 := ((x &&& osIdMask) >>> 48).setWidth 32

/-- `GET_PROC_ID`. -/
def getProcId (x : Word) : BitVec 32 := ((x &&& procIdMask) >>> 32).setWidth 32

/-- `GET_GEN_ID`. -/
def getGenId (x : Word) : BitVec 32 := (x &&& genIdMask).setWidth 32

/-- `GET_MSG_TYPE`. -/
def getMsgType (x : Word) : BitVec 32 := ((x &&& msgTypeMask) >>> 62).setWidth 32

/-- `SET_OS_ID`. -/
def setOsId (x y : Word) : Word := (x &&& ~~~osIdMask) + (y <<< 48)

/-- `SET_PROC_ID`. -/
def setProcId (x y : Word) : Word := (x &&& ~~~procIdMask) + (y <<< 32)

/-- `SET_GEN_ID`. -/
def setGenId (x y : Word) : Word := (x &&& ~~~genIdMask) + (y &&& genIdMask)

/-- `SET_MSG_TYPE`. -/
def setMsgType (x y : Word) : Word := (x &&& ~~~msgTypeMask) + (y <<< 62)

/-- `SET_OS_ID` and `SET_GEN_ID`, as every instance sets its `my_osii`. -/
def osiiOf (osId : Nat) (gen : BitVec 32) : Word :=
  setGenId (setOsId 0 (BitVec.ofNat 64 osId)) (gen.signExtend 64)

theorem getGenId_eq (x : Word) : getGenId x = x.setWidth 32 := by
  have ones : genIdMask.setWidth 32 = BitVec.allOnes 32 := by decide
  rw [getGenId, BitVec.setWidth_and, ones, BitVec.and_allOnes]

@[simp] theorem getGenId_setGenId (x : Word) (gen : BitVec 32) :
    getGenId (setGenId x (gen.signExtend 64)) = gen := by
  have zeros : (~~~genIdMask).setWidth 32 = 0#32 := by decide
  have ones : genIdMask.setWidth 32 = BitVec.allOnes 32 := by decide
  rw [getGenId_eq, setGenId, BitVec.setWidth_add _ _ (by decide), BitVec.setWidth_and,
    BitVec.setWidth_and, zeros, ones, BitVec.and_zero, BitVec.zero_add, BitVec.and_allOnes]
  ext i inside
  rw [BitVec.getElem_setWidth, BitVec.getLsbD_signExtend, if_pos inside,
    BitVec.getLsbD_eq_getElem inside]
  simp only [Bool.and_eq_right_iff_imp, decide_eq_true_eq]
  omega

@[simp] theorem getGenId_setMsgType (x y : Word) : getGenId (setMsgType x y) = getGenId x := by
  have zeros : (y <<< 62).setWidth 32 = 0#32 := by
    ext i inside
    simp
  have ones : (~~~msgTypeMask).setWidth 32 = BitVec.allOnes 32 := by decide
  rw [getGenId_eq, getGenId_eq, setMsgType, BitVec.setWidth_add _ _ (by decide),
    BitVec.setWidth_and, zeros, ones, BitVec.add_zero, BitVec.and_allOnes]

/-! ## The fields as numbers -/

section Numbers

variable {mask : Word} {s w : Nat}

theorem toNat_field (x : Word) (ones : mask >>> s = BitVec.ofNat 64 (2 ^ w - 1))
    (narrow : w < 64) :
    ((x &&& mask) >>> s).toNat = x.toNat / 2 ^ s % 2 ^ w := by
  have small : 2 ^ w - 1 < 2 ^ 64 :=
    lt_of_le_of_lt (Nat.sub_le _ _) (Nat.pow_lt_pow_right (by decide) narrow)
  rw [BitVec.ushiftRight_and_distrib, ones, BitVec.toNat_and, BitVec.toNat_ofNat,
    Nat.mod_eq_of_lt small, Nat.and_two_pow_sub_one_eq_mod, BitVec.toNat_ushiftRight,
    Nat.shiftRight_eq_div_pow]

/-- A field that is zero is cleared already. -/
theorem and_not_of_field_eq_zero {x : Word}
    (bits : ∀ i < 64, mask.getLsbD i = decide (s ≤ i ∧ i < s + w))
    (zero : x.toNat / 2 ^ s % 2 ^ w = 0) : x &&& ~~~mask = x := by
  refine BitVec.eq_of_getLsbD_eq fun i inside => ?_
  rw [BitVec.getLsbD_and, BitVec.getLsbD_not, bits i inside]
  by_cases inField : s ≤ i ∧ i < s + w
  · have clear : (x.toNat / 2 ^ s % 2 ^ w).testBit (i - s) = false := by
      rw [zero, Nat.zero_testBit]
    rw [Nat.testBit_mod_two_pow, Nat.testBit_div_two_pow, Nat.sub_add_cancel inField.1] at clear
    have isClear : x.getLsbD i = false := by
      simpa [BitVec.getLsbD, show i - s < w by omega] using clear
    rw [isClear, Bool.false_and]
  · simp [inField, inside]

end Numbers

theorem toNat_getOsId (x : Word) : (getOsId x).toNat = x.toNat / 2 ^ 48 % 2 ^ 14 := by
  rw [getOsId, BitVec.toNat_setWidth, toNat_field x (w := 14) (by decide) (by decide)]
  omega

theorem toNat_getProcId (x : Word) : (getProcId x).toNat = x.toNat / 2 ^ 32 % 2 ^ 16 := by
  rw [getProcId, BitVec.toNat_setWidth, toNat_field x (w := 16) (by decide) (by decide)]
  omega

theorem toNat_getMsgType (x : Word) : (getMsgType x).toNat = x.toNat / 2 ^ 62 % 2 ^ 2 := by
  rw [getMsgType, BitVec.toNat_setWidth, toNat_field x (w := 2) (by decide) (by decide)]
  omega

theorem toNat_getGenId (x : Word) : (getGenId x).toNat = x.toNat % 2 ^ 32 := by
  rw [getGenId_eq, BitVec.toNat_setWidth]

theorem toNat_setMsgType (x y : Word) :
    (setMsgType x y).toNat = (x.toNat % 2 ^ 62 + y.toNat % 4 * 2 ^ 62) % 2 ^ 64 := by
  have clear : ~~~msgTypeMask = BitVec.ofNat 64 (2 ^ 62 - 1) := by decide
  rw [setMsgType, clear, BitVec.toNat_add, BitVec.toNat_and, BitVec.toNat_ofNat,
    Nat.mod_eq_of_lt (by decide : 2 ^ 62 - 1 < 2 ^ 64), Nat.and_two_pow_sub_one_eq_mod,
    BitVec.toNat_shiftLeft, Nat.shiftLeft_eq]
  omega

/-- The process id that is set is not masked. -/
theorem toNat_setProcId {x : Word} (clear : x.toNat / 2 ^ 32 % 2 ^ 16 = 0) (y : Word) :
    (setProcId x y).toNat = (x.toNat + y.toNat * 2 ^ 32) % 2 ^ 64 := by
  rw [setProcId, and_not_of_field_eq_zero (s := 32) (w := 16) (by decide) clear,
    BitVec.toNat_add, BitVec.toNat_shiftLeft, Nat.shiftLeft_eq]
  omega

theorem toNat_osiiOf {osId : Nat} (small : osId < 2 ^ 14) (gen : BitVec 32) :
    (osiiOf osId gen).toNat = osId * 2 ^ 48 + gen.toNat := by
  have genBound := gen.isLt
  have upper : (setOsId 0 (BitVec.ofNat 64 osId)).toNat = osId * 2 ^ 48 := by
    have cleared : (0 : Word) &&& ~~~osIdMask = 0#64 := by decide
    rw [setOsId, cleared, BitVec.zero_add, BitVec.toNat_shiftLeft, BitVec.toNat_ofNat,
      Nat.shiftLeft_eq]
    omega
  have kept : setOsId 0 (BitVec.ofNat 64 osId) &&& ~~~genIdMask =
      setOsId 0 (BitVec.ofNat 64 osId) :=
    and_not_of_field_eq_zero (s := 0) (w := 32) (by decide) (by rw [upper]; omega)
  have lower : (gen.signExtend 64 &&& genIdMask).toNat = gen.toNat := by
    have whole := congrArg BitVec.toNat (getGenId_setGenId 0 gen)
    have cleared : (0 : Word) &&& ~~~genIdMask = 0#64 := by decide
    have masked : ((gen.signExtend 64 &&& genIdMask) >>> 0).toNat =
        (gen.signExtend 64).toNat / 2 ^ 0 % 2 ^ 32 := toNat_field _ (by decide) (by decide)
    rw [toNat_getGenId, setGenId, cleared, BitVec.zero_add] at whole
    rw [BitVec.ushiftRight_zero] at masked
    omega
  rw [osiiOf, setGenId, kept, BitVec.toNat_add, upper, lower]
  omega

end Lupin.Cgroup
