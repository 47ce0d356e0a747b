import Lupin.Lib.StoreTrace

/-!
# The checksum of the redo log

`util_checksum_compute` sums 32 bit words in the manner of Fletcher. It can be told
where the checksum itself lives in the range, and leaves that place out.
-/

namespace Lupin.Log

open Lupin.Memory

/-- The loop of `util_checksum_compute`. Addresses are of bytes, `stop` is
`p32end`; every round goes on by a word at least, so `words` rounds are enough. -/
def checksumLoop (m : Mem) (csump : Option Nat) (skip stop : Nat) :
    (words p32 lo32 hi32 : Nat) → Nat × Nat
  | 0, _, lo32, hi32 => (lo32, hi32)
  | words + 1, p32, lo32, hi32 =>
      if p32 < stop then
        if csump = some p32 ∨ p32 ≥ skip then
          checksumLoop m csump skip stop words (p32 + 8) lo32 ((hi32 + lo32 + lo32) % 2 ^ 32)
        else
          let lo32 := (lo32 + m.read 4 p32) % 2 ^ 32
          checksumLoop m csump skip stop words (p32 + 4) lo32 ((hi32 + lo32) % 2 ^ 32)
      else (lo32, hi32)

/-- `util_checksum_compute`. -/
def utilChecksumCompute (m : Mem) (addr len : Nat) (csump : Option Nat) (skipOff : Nat) : Nat :=
  let skip := if skipOff ≠ 0 then addr + skipOff else addr + len
  let (lo32, hi32) := checksumLoop m csump skip (addr + len) (len / 4) addr 0 0
  hi32 <<< 32 ||| lo32

/-- `util_checksum`; the range is of whole words. -/
def utilChecksum (addr len csump : Nat) (insert : Bool) (skipOff : Nat) : Shm Bool := do
  Shm.bugOn (len % 4 != 0)
  let m ← Shm.get
  let csum := utilChecksumCompute m addr len (some csump) skipOff
  if insert then
    Shm.put (Mem.scalar 8 csump csum)
    pure true
  else pure (m.read 8 csump == csum)

/-- The checksum of a range depends on its bytes, not on a checksum that lives outside. -/
theorem checksumLoop_congr {m m' : Mem} {csump csump' : Option Nat} {skip stop : Nat}
    (outside : ∀ c, csump = some c → stop ≤ c) (outside' : ∀ c, csump' = some c → stop ≤ c)
    {p32 : Nat} (words : Nat) (aligned : stop % 4 = p32 % 4)
    (same : ∀ b, p32 ≤ b → b < stop → m b = m' b) (lo32 hi32 : Nat) :
    checksumLoop m csump skip stop words p32 lo32 hi32 =
      checksumLoop m' csump' skip stop words p32 lo32 hi32 := by
  induction words generalizing p32 lo32 hi32 with
  | zero => rfl
  | succ words inductionHypothesis =>
      rw [checksumLoop, checksumLoop]
      by_cases inside : p32 < stop
      · have notHere : ¬ csump = some p32 := fun here => by
          have := outside p32 here
          omega
        have notHere' : ¬ csump' = some p32 := fun here => by
          have := outside' p32 here
          omega
        have word : m.read 4 p32 = m'.read 4 p32 :=
          Mem.read_congr fun b above below => same b above (by omega)
        simp only [inside, if_true, notHere, notHere', false_or, word]
        split
        · exact inductionHypothesis (by omega) (fun b above below => same b (by omega) below) _ _
        · exact inductionHypothesis (by omega) (fun b above below => same b (by omega) below) _ _
      · simp only [inside, if_false]

theorem checksumLoop_lt (m : Mem) (csump : Option Nat) (skip stop : Nat) (words p32 : Nat)
    {lo32 hi32 : Nat} (lo : lo32 < 2 ^ 32) (hi : hi32 < 2 ^ 32) :
    (checksumLoop m csump skip stop words p32 lo32 hi32).1 < 2 ^ 32 ∧
      (checksumLoop m csump skip stop words p32 lo32 hi32).2 < 2 ^ 32 := by
  induction words generalizing p32 lo32 hi32 with
  | zero => exact ⟨lo, hi⟩
  | succ words inductionHypothesis =>
      have small : ∀ n, n % 2 ^ 32 < 2 ^ 32 := fun n => Nat.mod_lt _ (by decide)
      rw [checksumLoop]
      split
      · split
        · exact inductionHypothesis _ lo (small _)
        · exact inductionHypothesis _ (small _) (small _)
      · exact ⟨lo, hi⟩

/-- The two entry points agree on a range of whole words that the checksum is not in. -/
theorem utilChecksumCompute_congr {m m' : Mem} {addr len : Nat} {csump csump' : Option Nat}
    (outside : ∀ c, csump = some c → addr + len ≤ c)
    (outside' : ∀ c, csump' = some c → addr + len ≤ c) (whole : len % 4 = 0)
    (same : ∀ b, addr ≤ b → b < addr + len → m b = m' b) (skipOff : Nat) :
    utilChecksumCompute m addr len csump skipOff =
      utilChecksumCompute m' addr len csump' skipOff := by
  unfold utilChecksumCompute
  dsimp only
  rw [checksumLoop_congr outside outside' (len / 4) (by omega) same]

/-- A checksum is a 64 bit value. -/
theorem utilChecksumCompute_lt (m : Mem) (addr len : Nat) (csump : Option Nat) (skipOff : Nat) :
    utilChecksumCompute m addr len csump skipOff < 256 ^ 8 := by
  unfold utilChecksumCompute
  dsimp only
  obtain ⟨lo, hi⟩ := checksumLoop_lt m csump (if skipOff ≠ 0 then addr + skipOff else addr + len)
    (addr + len) (len / 4) addr (by decide : 0 < 2 ^ 32) (by decide : 0 < 2 ^ 32)
  refine Nat.or_lt_two_pow (n := 64) ?_ (lt_trans lo (by decide))
  rw [Nat.shiftLeft_eq]
  omega

end Lupin.Log
