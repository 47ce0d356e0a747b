import Mathlib.Data.Nat.Bitwise
import Mathlib.Tactic.Common
import Lupin.Lock.Word

/-!
# The status word and the active set of the W-port lock

`csst` packs a sequence number or an owner (bits 0 to 55), the port of the last
owner (bits 56 to 61) and the taken bit 62. `active` has one bit for each port.
-/

namespace Lupin.Lock.Wport

/-- The widths `jj_ab_wport_spin.h` can be instantiated with. -/
inductive PortSize where
  | w8
  | w16
  | w32
  | w64
deriving DecidableEq

/-- The macro `wsize`. -/
def PortSize.wsize : PortSize → Nat
  | .w8 => 8
  | .w16 => 16
  | .w32 => 32
  | .w64 => 64

theorem PortSize.wsize_le (ports : PortSize) : ports.wsize ≤ 64 := by
  cases ports <;> decide

theorem PortSize.wsize_pos (ports : PortSize) : 0 < ports.wsize := by
  cases ports <;> decide

def wportCsstBMask : BitVec 64 := 1#64 <<< 62
def wportCsstPortidMask : BitVec 64 := 0x3f#64 <<< 56
def wportCsstSMask : BitVec 64 := (1#64 <<< 56) - 1
def wportCsstSMax : BitVec 64 := wportCsstSMask

/-- `struct wport_csst`. -/
structure WportCsst where
  b : Bool
  owner : BitVec 8
  s : BitVec 64
deriving DecidableEq

/-- The word `compose_wport_csst` puts together from a sequence number in range. -/
def wportWord (b : Bool) (s : BitVec 64) (port : BitVec 8) : BitVec 64 :=
  (if b then wportCsstBMask else 0) ||| s ||| (port.setWidth 64 <<< 56)

/-- `compose_wport_csst`; `none` is its `BUG_ON`. -/
def composeWportCsst (b : Bool) (s : BitVec 64) (port : BitVec 8) : Option (BitVec 64) :=
  if port > 63 then none
  else some (wportWord b (if s > wportCsstSMax then 0 else s) port)

/-- `decompose_wport_csst`. -/
def decomposeWportCsst (csst : BitVec 64) : WportCsst where
  b := decide (csst &&& wportCsstBMask > 0)
  owner := ((csst &&& wportCsstPortidMask) >>> 56).setWidth 8
  s := csst &&& wportCsstSMask

private theorem getLsbD_wportCsstSMask (i : Nat) :
    wportCsstSMask.getLsbD i = decide (i < 56) :=
  getLsbD_mask wportCsstSMask (fun i => decide (i < 56)) (by decide)
    (fun i high => by simp; omega) i

private theorem getLsbD_wportCsstPortidMask (i : Nat) :
    wportCsstPortidMask.getLsbD i = decide (56 ≤ i ∧ i < 62) :=
  getLsbD_mask wportCsstPortidMask (fun i => decide (56 ≤ i ∧ i < 62)) (by decide)
    (fun i high => by simp; omega) i

private theorem getLsbD_wportCsstBMask (i : Nat) :
    wportCsstBMask.getLsbD i = decide (i = 62) :=
  getLsbD_mask wportCsstBMask (fun i => decide (i = 62)) (by decide)
    (fun i high => by simp; omega) i

private theorem getLsbD_of_small {w : Nat} {x : BitVec w} {k i : Nat} (small : x.toNat < 2 ^ k)
    (high : k ≤ i) : x.getLsbD i = false := by
  unfold BitVec.getLsbD
  exact Nat.testBit_eq_false_of_lt (lt_of_lt_of_le small (Nat.pow_le_pow_right (by decide) high))

section Decode

variable {b : Bool} {s : BitVec 64} {port : BitVec 8}

private theorem getLsbD_wportWord (i : Nat) : (wportWord b s port).getLsbD i =
    (b && decide (i = 62) || s.getLsbD i ||
      (decide (i < 64) && !decide (i < 56) && port.getLsbD (i - 56))) := by
  unfold wportWord
  rw [BitVec.getLsbD_or, BitVec.getLsbD_or, BitVec.getLsbD_shiftLeft, BitVec.getLsbD_setWidth]
  cases b with
  | false => by_cases inWord : i - 56 < 64 <;> simp [inWord]; omega
  | true =>
      simp only [if_true, getLsbD_wportCsstBMask, Bool.true_and]
      by_cases inWord : i - 56 < 64 <;> simp [inWord]; omega

/-- A composed word decodes to its fields. -/
theorem decompose_wportWord (seqBound : s.toNat < 2 ^ 56) (portBound : port.toNat < 64) :
    decomposeWportCsst (wportWord b s port) = ⟨b, port, s⟩ := by
  have seqHigh : ∀ i, 56 ≤ i → s.getLsbD i = false := fun i => getLsbD_of_small seqBound
  have portHigh : ∀ i, 6 ≤ i → port.getLsbD i = false :=
    fun i => getLsbD_of_small (by simpa using portBound)
  have owner : ((wportWord b s port &&& wportCsstPortidMask) >>> 56).setWidth 8 = port := by
    apply BitVec.eq_of_getLsbD_eq
    intro i bounded
    rw [BitVec.getLsbD_setWidth, BitVec.getLsbD_ushiftRight, BitVec.getLsbD_and,
      getLsbD_wportWord, getLsbD_wportCsstPortidMask, seqHigh (56 + i) (by omega)]
    by_cases low : i < 6
    · have notTaken : ¬ 56 + i = 62 := by omega
      have inside : 56 + i < 64 ∧ ¬ 56 + i < 56 ∧ 56 + i < 62 := by omega
      simp [bounded, notTaken, inside]
    · rw [portHigh i (by omega)]
      have outside : ¬ 56 + i < 62 := by omega
      simp [outside]
  have seq : wportWord b s port &&& wportCsstSMask = s := by
    apply BitVec.eq_of_getLsbD_eq
    intro i bounded
    rw [BitVec.getLsbD_and, getLsbD_wportWord, getLsbD_wportCsstSMask]
    by_cases low : i < 56
    · have notTaken : ¬ i = 62 := by omega
      simp [low, notTaken]
    · rw [seqHigh i (by omega)]
      simp [low]
  have taken : wportWord b s port &&& wportCsstBMask = if b then wportCsstBMask else 0 := by
    apply BitVec.eq_of_getLsbD_eq
    intro i bounded
    rw [BitVec.getLsbD_and, getLsbD_wportWord, getLsbD_wportCsstBMask]
    by_cases bit : i = 62
    · subst bit
      rw [seqHigh 62 (by decide), portHigh (62 - 56) (by decide)]
      cases b <;> simp [getLsbD_wportCsstBMask]
    · cases b <;> simp [bit, getLsbD_wportCsstBMask]
  unfold decomposeWportCsst
  rw [owner, seq, taken]
  have flag : decide ((if b then wportCsstBMask else 0) > 0) = b := by
    cases b with
    | false => decide
    | true => decide
  rw [flag]

/-- A sequence number in range is composed as it is. -/
theorem composeWportCsst_eq (seqBound : s.toNat < 2 ^ 56) (portBound : port.toNat < 64) :
    composeWportCsst b s port = some (wportWord b s port) := by
  have maximum : wportCsstSMax.toNat = 2 ^ 56 - 1 := by decide
  have small : ¬ s > wportCsstSMax := by
    rw [gt_iff_lt, BitVec.lt_def]
    omega
  have inRange : ¬ port > 63 := by
    rw [gt_iff_lt, BitVec.lt_def]
    simp
    omega
  rw [composeWportCsst, if_neg inRange, if_neg small]

end Decode

/-! ## The active set -/

section Active

variable {W : Nat}

/-- The mask of `set_bit` and `unset_bit`. -/
def bitMask (W k : Nat) : BitVec W := 1#W <<< k

/-- The test of `set_bit`, `unset_bit` and `next_bit`. -/
def isSet (active : BitVec W) (k : Nat) : Bool := active &&& bitMask W k != 0

/-- The loop of `next_bit`, with at most `fuel` rounds. -/
def nextBitLoop (active : BitVec W) : Nat → Nat → Nat
  | 0, pos => pos
  | fuel + 1, pos => if isSet active pos then pos else nextBitLoop active fuel ((pos + 1) % W)

/-- `next_bit`: the first set bit after `k`, going around once. -/
def nextBit (active : BitVec W) (k : Nat) : Nat := nextBitLoop active W ((k + 1) % W)

theorem getLsbD_bitMask {k : Nat} (i : Nat) (bound : k < W) :
    (bitMask W k).getLsbD i = decide (i = k) := by
  unfold bitMask
  rw [BitVec.getLsbD_shiftLeft, BitVec.getLsbD_one]
  by_cases same : i = k
  · subst same
    simp [bound]
    omega
  · by_cases below : i < k
    · simp [below, same]
    · have : i - k ≠ 0 := by omega
      simp [this, same]

theorem isSet_eq_getLsbD (active : BitVec W) {k : Nat} (bound : k < W) :
    isSet active k = active.getLsbD k := by
  have bits : ∀ i, (active &&& bitMask W k).getLsbD i = (active.getLsbD i && decide (i = k)) := by
    intro i
    rw [BitVec.getLsbD_and, getLsbD_bitMask i bound]
  unfold isSet
  cases bit : active.getLsbD k with
  | true =>
      rw [bne_iff_ne]
      intro zero
      have here := bits k
      rw [zero, bit] at here
      simp at here
  | false =>
      rw [bne_eq_false_iff_eq]
      apply BitVec.eq_of_getLsbD_eq
      intro i _
      rw [bits i]
      by_cases same : i = k
      · subst same
        simp [bit]
      · simp [same]

/-- The fetch-add of `set_bit` sets the one bit when it was clear. -/
theorem getLsbD_add_bitMask (active : BitVec W) {k : Nat} (bound : k < W)
    (clear : active.getLsbD k = false) (i : Nat) :
    (active + bitMask W k).getLsbD i = (active.getLsbD i || decide (i = k)) := by
  have disjoint : active &&& bitMask W k = 0 := by
    have unset := isSet_eq_getLsbD active bound
    rw [clear] at unset
    simpa [isSet] using unset
  rw [BitVec.add_eq_or_of_and_eq_zero _ _ disjoint, BitVec.getLsbD_or, getLsbD_bitMask i bound]

/-- The fetch-sub of `unset_bit` clears the one bit when it was set. -/
theorem getLsbD_sub_bitMask (active : BitVec W) {k : Nat} (bound : k < W)
    (set : active.getLsbD k = true) (i : Nat) :
    (active - bitMask W k).getLsbD i = (active.getLsbD i && !decide (i = k)) := by
  have rest : active = (active &&& ~~~bitMask W k) + bitMask W k := by
    rw [BitVec.add_eq_or_of_and_eq_zero]
    · apply BitVec.eq_of_getLsbD_eq
      intro j inWord
      rw [BitVec.getLsbD_or, BitVec.getLsbD_and, BitVec.getLsbD_not, getLsbD_bitMask j bound]
      by_cases same : j = k
      · subst same
        simp [set]
      · simp [same, inWord]
    · apply BitVec.eq_of_getLsbD_eq
      intro j _
      rw [BitVec.getLsbD_and, BitVec.getLsbD_and, BitVec.getLsbD_not]
      cases (bitMask W k).getLsbD j <;> simp
  have difference : active - bitMask W k = active &&& ~~~bitMask W k := by
    nth_rewrite 1 [rest]
    exact BitVec.add_sub_cancel _ _
  rw [difference, BitVec.getLsbD_and, BitVec.getLsbD_not, getLsbD_bitMask i bound]
  by_cases inWord : i < W
  · simp [inWord]
  · rw [BitVec.getLsbD_of_ge active i (by omega)]
    simp

private theorem nextBitLoop_isSet (active : BitVec W) {k : Nat} (set : isSet active k = true)
    (bound : k < W) (distance pos fuel : Nat) (reaches : (pos + distance) % W = k)
    (posBound : pos < W) (enough : distance < fuel) :
    isSet active (nextBitLoop active fuel pos) = true ∧ nextBitLoop active fuel pos < W := by
  -- induction on how far the set bit is ahead of `pos`
  induction distance generalizing pos fuel with
  | zero =>
      obtain ⟨rounds, rfl⟩ := Nat.exists_eq_succ_of_ne_zero (by omega : fuel ≠ 0)
      rw [Nat.add_zero, Nat.mod_eq_of_lt posBound] at reaches
      subst reaches
      simp [nextBitLoop, set, posBound]
  | succ distance inductionHypothesis =>
      obtain ⟨rounds, rfl⟩ := Nat.exists_eq_succ_of_ne_zero (by omega : fuel ≠ 0)
      unfold nextBitLoop
      split
      · exact ⟨by assumption, posBound⟩
      · apply inductionHypothesis
        · rw [Nat.mod_add_mod, ← reaches]
          congr 1
          omega
        · exact Nat.mod_lt _ (by omega)
        · omega

/-- With a port in the active set, `next_bit` returns one. -/
theorem nextBit_isSet {active : BitVec W} (nonempty : active ≠ 0) (k : Nat) :
    isSet active (nextBit active k) = true ∧ nextBit active k < W := by
  have someBit : ∃ i, active.getLsbD i = true := by
    by_contra none
    apply nonempty
    apply BitVec.eq_of_getLsbD_eq
    intro i _
    simpa using fun bit => none ⟨i, bit⟩
  obtain ⟨i, bit⟩ := someBit
  have bound : i < W := BitVec.lt_of_getLsbD bit
  have start : (k + 1) % W < W := Nat.mod_lt _ (by omega)
  by_cases ahead : (k + 1) % W ≤ i
  · apply nextBitLoop_isSet active (by rw [isSet_eq_getLsbD _ bound, bit]) bound
      (i - (k + 1) % W) _ _ _ start (by omega)
    rw [Nat.add_sub_cancel' ahead, Nat.mod_eq_of_lt bound]
  · apply nextBitLoop_isSet active (by rw [isSet_eq_getLsbD _ bound, bit]) bound
      (i + W - (k + 1) % W) _ _ _ start (by omega)
    rw [show (k + 1) % W + (i + W - (k + 1) % W) = i + W by omega, Nat.add_mod_right,
      Nat.mod_eq_of_lt bound]

end Active

end Lupin.Lock.Wport
