import Lupin.Log.Recover

/-!
# A log that is torn

The next operation writes its log over the last one, whose `COMMIT` stays behind. A machine that
dies before it has reached that place leaves entries of two logs, and the checksum of one of them.
The checksum gives every change of eight bytes away.
-/

namespace Lupin.Log

open Lupin.Memory Lupin.Buddy

section Checksum

variable {m m' : Mem} {stop : Nat}

/-- One word goes into the sums. -/
theorem checksumLoop_word {words p32 lo32 hi32 : Nat} (inside : p32 < stop) (m : Mem) :
    checksumLoop m none stop stop (words + 1) p32 lo32 hi32 =
      checksumLoop m none stop stop words (p32 + 4) ((lo32 + m.read 4 p32) % 2 ^ 32)
        ((hi32 + (lo32 + m.read 4 p32) % 2 ^ 32) % 2 ^ 32) := by
  rw [checksumLoop, if_pos inside, if_neg (by simp [inside])]

/-- The sums before can be told from the sums after the same words. -/
theorem checksumLoop_injective {words p32 lo32 hi32 lo32' hi32' : Nat}
    (range : p32 + 4 * words = stop) (same : ∀ a, p32 ≤ a → a < stop → m' a = m a)
    (lo : lo32 < 2 ^ 32) (hi : hi32 < 2 ^ 32) (lo' : lo32' < 2 ^ 32) (hi' : hi32' < 2 ^ 32)
    (equal : checksumLoop m none stop stop words p32 lo32 hi32 =
      checksumLoop m' none stop stop words p32 lo32' hi32') : lo32 = lo32' ∧ hi32 = hi32' := by
  induction words generalizing p32 lo32 hi32 lo32' hi32' with
  | zero => exact Prod.mk.inj equal
  | succ words inductionHypothesis =>
      have word : m'.read 4 p32 = m.read 4 p32 :=
        Mem.read_congr fun a low high => same a low (by omega)
      rw [checksumLoop_word (by omega), checksumLoop_word (by omega), word] at equal
      obtain ⟨sameLo, sameHi⟩ := inductionHypothesis (by omega)
        (fun a low high => same a (by omega) high) (Nat.mod_lt _ (by decide))
        (Nat.mod_lt _ (by decide)) (Nat.mod_lt _ (by decide)) (Nat.mod_lt _ (by decide)) equal
      omega

/-- Two words in a row can be told from the sums. -/
theorem checksumLoop_pair {words p32 q lo32 hi32 : Nat} (range : p32 + 4 * words = stop)
    {before : Nat} (place : p32 + 4 * before = q) (inside : q + 8 ≤ stop)
    (same : ∀ a, p32 ≤ a → a < stop → a < q ∨ q + 8 ≤ a → m' a = m a)
    (equal : checksumLoop m none stop stop words p32 lo32 hi32 =
      checksumLoop m' none stop stop words p32 lo32 hi32) :
    m'.read 4 q = m.read 4 q ∧ m'.read 4 (q + 4) = m.read 4 (q + 4) := by
  induction before generalizing words p32 lo32 hi32 with
  | zero =>
      obtain rfl : p32 = q := by omega
      obtain ⟨words, rfl⟩ : ∃ more, words = more + 2 := ⟨words - 2, by omega⟩
      rw [checksumLoop_word (by omega), checksumLoop_word (by omega), checksumLoop_word (by omega),
        checksumLoop_word (by omega)] at equal
      have first := Mem.read_lt m 4 p32
      have first' := Mem.read_lt m' 4 p32
      have second := Mem.read_lt m 4 (p32 + 4)
      have second' := Mem.read_lt m' 4 (p32 + 4)
      obtain ⟨sameLo, sameHi⟩ := checksumLoop_injective (by omega : p32 + 4 + 4 + 4 * words = stop)
        (fun a low high => same a (by omega) high (by omega)) (Nat.mod_lt _ (by decide))
        (Nat.mod_lt _ (by decide)) (Nat.mod_lt _ (by decide)) (Nat.mod_lt _ (by decide)) equal
      omega
  | succ before inductionHypothesis =>
      obtain ⟨words, rfl⟩ : ∃ more, words = more + 1 := ⟨words - 1, by omega⟩
      have word : m'.read 4 p32 = m.read 4 p32 :=
        Mem.read_congr fun a low high => same a low (by omega) (by omega)
      rw [checksumLoop_word (by omega), checksumLoop_word (by omega), word] at equal
      exact inductionHypothesis (by omega) (by omega)
        (fun a low high apart => same a (by omega) high apart) equal

end Checksum

section Torn

variable {m m' : Mem} {log : Nat}

/-- A checksum holds both sums. -/
theorem utilChecksumCompute_inj {addr len : Nat}
    (equal : utilChecksumCompute m addr len none 0 = utilChecksumCompute m' addr len none 0) :
    checksumLoop m none (addr + len) (addr + len) (len / 4) addr 0 0 =
      checksumLoop m' none (addr + len) (addr + len) (len / 4) addr 0 0 := by
  unfold utilChecksumCompute at equal
  rw [if_neg (by simp)] at equal
  dsimp only at equal
  obtain ⟨lo, _⟩ := checksumLoop_lt m none (addr + len) (addr + len) (len / 4) addr
    (by decide : 0 < 2 ^ 32) (by decide : 0 < 2 ^ 32)
  obtain ⟨lo', _⟩ := checksumLoop_lt m' none (addr + len) (addr + len) (len / 4) addr
    (by decide : 0 < 2 ^ 32) (by decide : 0 < 2 ^ 32)
  rw [← Nat.shiftLeft_add_eq_or_of_lt lo, ← Nat.shiftLeft_add_eq_or_of_lt lo', Nat.shiftLeft_eq,
    Nat.shiftLeft_eq] at equal
  exact Prod.ext (by omega) (by omega)

/-- The checksum of a range gives a change of eight of its bytes away. -/
theorem utilChecksumCompute_detects {addr len q : Nat} (whole : len % 4 = 0)
    (aligned : (q - addr) % 4 = 0) (start : addr ≤ q) (inside : q + 8 ≤ addr + len)
    (same : ∀ a, addr ≤ a → a < addr + len → a < q ∨ q + 8 ≤ a → m' a = m a)
    (equal : utilChecksumCompute m addr len none 0 = utilChecksumCompute m' addr len none 0) :
    m'.read 4 q = m.read 4 q ∧ m'.read 4 (q + 4) = m.read 4 (q + 4) :=
  checksumLoop_pair (by omega : addr + 4 * (len / 4) = addr + len)
    (by omega : addr + 4 * ((q - addr) / 4) = q) inside same (utilChecksumCompute_inj equal)

/-- The scan fails at a `COMMIT` with another checksum. -/
theorem findCommit_fails {count i : Nat}
    (isCommit : m.read 4 (entryAddr log i) = EntryType.commit.code)
    (wrong : m.read 8 (entryAddr log i + 8) ≠
      utilChecksumCompute m log (i * sizeofLogEntry) none 0) :
    (findCommit log (count + 1) i).Returns m [] (.error elogErr) := by
  have sameSum : utilChecksumCompute m log (sizeofLogEntry * i) (some (entryAddr log i + 8)) 0 =
      utilChecksumCompute m log (i * sizeofLogEntry) none 0 := by
    rw [Nat.mul_comm]
    refine utilChecksumCompute_congr (fun c here => ?_) (by simp)
      (by unfold sizeofLogEntry; omega) (fun _ _ _ => rfl) 0
    obtain rfl := Option.some.inj here
    unfold entryAddr
    rw [Nat.mul_comm]
    omega
  have checked : (utilChecksum log (sizeofLogEntry * i) (entryAddr log i + 8) false 0).Returns m []
      false := by
    refine .bugOn_bind (by simp [sizeofLogEntry]; omega) (.get_bind ?_)
    dsimp only
    rw [sameSum, beq_eq_false_iff_ne.mpr wrong]
    exact Shm.Returns.pure m false
  rw [findCommit]
  refine .get_bind ?_
  rw [if_pos isCommit]
  exact Shm.Returns.bind checked (Shm.Returns.pure m _)

/-- A committed log in which eight bytes in front of the `COMMIT` have changed, to another tag or to
other data, is an error for recovery. Memory stays as it is. -/
theorem Committed.torn {entries : List LogEntry} (committed : Committed m log entries)
    (few : entries.length < redologEntries) {q : Nat} (aligned : (q - log) % 4 = 0)
    (start : log ≤ q) (inside : q + 8 ≤ entryAddr log entries.length)
    (same : ∀ a, a < q ∨ q + 8 ≤ a → m' a = m a)
    (changed : ¬ (m'.read 4 q = m.read 4 q ∧ m'.read 4 (q + 4) = m.read 4 (q + 4)))
    (noCommit : ∀ i < entries.length, m'.read 4 (entryAddr log i) ≠ EntryType.commit.code)
    (b : BuddyAlloc) (curObjRecs : Option Nat) :
    (recoverWithRedolog b log curObjRecs).Returns m' [] (elogErr, curObjRecs) := by
  have place : entryAddr log entries.length = log + entries.length * sizeofLogEntry := by
    rw [entryAddr, Nat.mul_comm]
  have commit : m'.read 4 (entryAddr log entries.length) = EntryType.commit.code := by
    rw [← committed.commit]
    exact Mem.read_congr fun a low _ => same a (by omega)
  have stored : m'.read 8 (entryAddr log entries.length + 8) =
      m.read 8 (entryAddr log entries.length + 8) :=
    Mem.read_congr fun a low _ => same a (by omega)
  have wrong : m'.read 8 (entryAddr log entries.length + 8) ≠
      utilChecksumCompute m' log (entries.length * sizeofLogEntry) none 0 := by
    rw [stored, committed.checksum]
    intro equal
    exact changed (utilChecksumCompute_detects (by unfold sizeofLogEntry; omega) aligned start
      (by omega) (fun a _ _ apart => same a apart) equal)
  obtain ⟨rest, whole⟩ : ∃ rest, redologEntries = entries.length + (rest + 1) :=
    ⟨redologEntries - entries.length - 1, by omega⟩
  have found : (findCommit log redologEntries 0).Returns m' [] (.error elogErr) := by
    rw [whole]
    refine findCommit_skip entries.length 0 (fun j _ bound => noCommit j (by omega)) ?_
    rw [Nat.zero_add]
    exact findCommit_fails commit wrong
  rw [Shm.Returns, recoverWithRedolog, found.bind_eq]
  rfl

end Torn

end Lupin.Log
