import Mathlib.Data.List.Basic
import Mathlib.Data.Nat.Bitwise
import Mathlib.Tactic.Common

/-!
# Byte memory, stores and store traces

Memory is a function from addresses to bytes. A computation on it is described
by the stores it makes, in order: stopping after `k` of them is the memory the
first `k` leave. Scalars are little endian.
-/

namespace Lupin.Memory

abbrev Byte := BitVec 8

/-- The content of a mapping, by offset. -/
abbrev Mem := Nat → Byte

/-- The NUL-terminated string at the start of an array. -/
def cString (chars : List Byte) : List Byte := chars.takeWhile (· ≠ 0) ++ [0]

/-- One store of a scalar or of a byte. -/
structure Store where
  addr : Nat
  bytes : List Byte
deriving DecidableEq

/-- The store writes this address. -/
def Store.Covers (s : Store) (a : Nat) : Prop := s.addr ≤ a ∧ a < s.addr + s.bytes.length

instance (s : Store) (a : Nat) : Decidable (s.Covers a) := inferInstanceAs (Decidable (_ ∧ _))

/-- The stores write no common address. -/
def Store.Apart (s t : Store) : Prop :=
  s.addr + s.bytes.length ≤ t.addr ∨ t.addr + t.bytes.length ≤ s.addr

/-- The store stays in a range of addresses. -/
def Store.Within (s : Store) (low high : Nat) : Prop :=
  low ≤ s.addr ∧ s.addr + s.bytes.length ≤ high

theorem Store.Within.not_covers {s : Store} {low high a : Nat} (within : s.Within low high)
    (outside : a < low ∨ high ≤ a) : ¬ s.Covers a := by
  unfold Store.Within at within
  unfold Store.Covers
  omega

theorem Store.Within.mono {s : Store} {low high low' high' : Nat} (within : s.Within low high)
    (below : low' ≤ low) (above : high ≤ high') : s.Within low' high' :=
  ⟨below.trans within.1, within.2.trans above⟩

/-- The store writes nothing in a range of addresses. -/
def Store.Outside (s : Store) (low high : Nat) : Prop :=
  s.addr + s.bytes.length ≤ low ∨ high ≤ s.addr

theorem Store.Outside.not_covers {s : Store} {low high a : Nat} (outside : s.Outside low high)
    (above : low ≤ a) (below : a < high) : ¬ s.Covers a := by
  unfold Store.Outside at outside
  unfold Store.Covers
  omega

theorem Store.Outside.mono {s : Store} {low high low' high' : Nat} (outside : s.Outside low high)
    (above : low ≤ low') (below : high' ≤ high) : s.Outside low' high' :=
  outside.imp (fun before => before.trans above) fun behind => below.trans behind

namespace Mem

/-- Memory after one store. -/
def store (m : Mem) (s : Store) : Mem := fun a =>
  if s.addr ≤ a then (s.bytes[a - s.addr]?).getD (m a) else m a

/-- Memory after a list of stores. -/
def apply (m : Mem) (stores : List Store) : Mem := stores.foldl store m

theorem store_of_not_covers {m : Mem} {s : Store} {a : Nat} (outside : ¬ s.Covers a) :
    m.store s a = m a := by
  unfold store
  split
  · rename_i above
    have beyond : s.bytes.length ≤ a - s.addr := by
      unfold Store.Covers at outside
      omega
    rw [List.getElem?_eq_none beyond, Option.getD_none]
  · rfl

theorem store_of_covers {m m' : Mem} {s : Store} {a : Nat} (inside : s.Covers a) :
    m.store s a = m'.store s a := by
  obtain ⟨above, below⟩ := inside
  have within : a - s.addr < s.bytes.length := by omega
  simp [store, above, List.getElem?_eq_getElem within]

@[simp] theorem apply_nil (m : Mem) : m.apply [] = m := rfl

@[simp] theorem apply_cons (m : Mem) (s : Store) (rest : List Store) :
    m.apply (s :: rest) = (m.store s).apply rest := rfl

theorem apply_append (m : Mem) (first second : List Store) :
    m.apply (first ++ second) = (m.apply first).apply second :=
  List.foldl_append

/-- An address no store writes keeps its byte. -/
theorem apply_of_not_covers {stores : List Store} {a : Nat}
    (outside : ∀ s ∈ stores, ¬ s.Covers a) (m : Mem) : m.apply stores a = m a := by
  induction stores generalizing m with
  | nil => rfl
  | cons s rest inductionHypothesis =>
      rw [apply_cons, inductionHypothesis fun s member => outside s (List.mem_cons_of_mem _ member)]
      exact store_of_not_covers (outside s List.mem_cons_self)

theorem apply_of_outside {stores : List Store} {low high a : Nat}
    (outside : ∀ s ∈ stores, s.Outside low high) (above : low ≤ a) (below : a < high) (m : Mem) :
    m.apply stores a = m a :=
  apply_of_not_covers (fun s member => (outside s member).not_covers above below) m

/-- What stores do at an address depends on the bytes there only. -/
theorem apply_congr {m m' : Mem} {a : Nat} (same : m a = m' a) (stores : List Store) :
    m.apply stores a = m'.apply stores a := by
  induction stores generalizing m m' with
  | nil => exact same
  | cons s rest inductionHypothesis =>
      rw [apply_cons, apply_cons]
      apply inductionHypothesis
      by_cases inside : s.Covers a
      · exact store_of_covers inside
      · rw [store_of_not_covers inside, store_of_not_covers inside, same]

/-- A written address ends with what its last store put there, whatever was there before. -/
theorem apply_eq_of_covered {stores : List Store} {a : Nat} (m m' : Mem)
    (covered : ∃ s ∈ stores, s.Covers a) : m.apply stores a = m'.apply stores a := by
  induction stores generalizing m m' with
  | nil => simp at covered
  | cons s rest inductionHypothesis =>
      rw [apply_cons, apply_cons]
      by_cases later : ∃ s ∈ rest, s.Covers a
      · exact inductionHypothesis _ _ later
      · obtain ⟨t, member, inside⟩ := covered
        rcases List.mem_cons.mp member with rfl | inRest
        · exact apply_congr (store_of_covers inside) rest
        · exact absurd ⟨t, inRest, inside⟩ later

/-- Among stores that do not overlap, each is found in memory, in whatever order they are made. -/
theorem apply_eq_store_of_mem {stores : List Store} (apart : stores.Pairwise Store.Apart)
    {s : Store} (member : s ∈ stores) {a : Nat} (inside : s.Covers a) (m : Mem) :
    m.apply stores a = m.store s a := by
  induction stores generalizing m with
  | nil => simp at member
  | cons t rest inductionHypothesis =>
      obtain ⟨headApart, restApart⟩ := List.pairwise_cons.mp apart
      rw [apply_cons]
      rcases List.mem_cons.mp member with rfl | inRest
      · refine apply_of_not_covers (fun u later => ?_) _
        have := headApart u later
        unfold Store.Covers at inside ⊢
        unfold Store.Apart at this
        omega
      · rw [inductionHypothesis restApart inRest]
        exact store_of_covers inside

/-! ## Scalars -/

/-- The bytes of a scalar of `n` bytes. -/
def leBytes : Nat → Nat → List Byte
  | 0, _ => []
  | n + 1, value => BitVec.ofNat 8 value :: leBytes n (value / 256)

/-- The scalar of `n` bytes at an address. -/
def read (m : Mem) : Nat → Nat → Nat
  | 0, _ => 0
  | n + 1, a => (m a).toNat + 256 * m.read n (a + 1)

/-- The store of a scalar of `n` bytes. -/
def scalar (n a value : Nat) : Store := ⟨a, leBytes n value⟩

@[simp] theorem length_leBytes (n value : Nat) : (leBytes n value).length = n := by
  induction n generalizing value with
  | zero => rfl
  | succ n inductionHypothesis => simp [leBytes, inductionHypothesis]

theorem scalar_covers {n a value b : Nat} :
    (scalar n a value).Covers b ↔ a ≤ b ∧ b < a + n := by
  simp [Store.Covers, scalar]

theorem scalar_within {n a value low high : Nat} :
    (scalar n a value).Within low high ↔ low ≤ a ∧ a + n ≤ high := by
  simp [Store.Within, scalar]

theorem read_congr {m m' : Mem} {n a : Nat} (same : ∀ b, a ≤ b → b < a + n → m b = m' b) :
    m.read n a = m'.read n a := by
  induction n generalizing a with
  | zero => rfl
  | succ n inductionHypothesis =>
      unfold read
      rw [same a le_rfl (by omega), inductionHypothesis fun b above below =>
        same b (by omega) (by omega)]

theorem read_lt (m : Mem) (n a : Nat) : m.read n a < 256 ^ n := by
  induction n generalizing a with
  | zero => simp [read]
  | succ n inductionHypothesis =>
      have byte := (m a).isLt
      have rest := inductionHypothesis (a + 1)
      unfold read
      rw [Nat.pow_succ]
      omega

/-- Fewer bytes make a smaller scalar. -/
theorem read_le (m : Mem) (n k a : Nat) : m.read n a ≤ m.read (n + k) a := by
  induction n generalizing a with
  | zero => exact Nat.zero_le _
  | succ n inductionHypothesis =>
      rw [Nat.succ_add]
      exact Nat.add_le_add_left (Nat.mul_le_mul_left _ (inductionHypothesis (a + 1))) _

/-- A scalar is read from the bytes that encode it. -/
theorem read_of_leBytes {m : Mem} {n a value : Nat}
    (stored : ∀ i, i < n → some (m (a + i)) = (leBytes n value)[i]?) :
    m.read n a = value % 256 ^ n := by
  induction n generalizing a value with
  | zero => simp [read, Nat.mod_one]
  | succ n inductionHypothesis =>
      have first := stored 0 (by omega)
      simp only [Nat.add_zero, leBytes, List.getElem?_cons_zero, Option.some.injEq] at first
      have rest : m.read n (a + 1) = value / 256 % 256 ^ n := by
        apply inductionHypothesis
        intro i bound
        have next := stored (i + 1) (by omega)
        rw [leBytes, List.getElem?_cons_succ] at next
        rw [← next]
        congr 2
        omega
      unfold read
      rw [first, rest, BitVec.toNat_ofNat]
      change value % 256 + 256 * (value / 256 % 256 ^ n) = value % 256 ^ (n + 1)
      rw [Nat.pow_succ, Nat.mul_comm (256 ^ n), Nat.mod_mul]

/-- A stored scalar is read back. -/
theorem read_store_self (m : Mem) (n a value : Nat) :
    (m.store (scalar n a value)).read n a = value % 256 ^ n := by
  apply read_of_leBytes
  intro i bound
  have within : i < (leBytes n value).length := by simpa using bound
  simp [store, scalar, List.getElem?_eq_getElem within]

theorem scalar_apart {n a value n' a' value' : Nat} :
    (scalar n a value).Apart (scalar n' a' value') ↔ a + n ≤ a' ∨ a' + n' ≤ a := by
  simp [Store.Apart, scalar]

/-- A store elsewhere does not change a scalar. -/
theorem read_store_of_disjoint {m : Mem} {n a : Nat} {s : Store}
    (disjoint : a + n ≤ s.addr ∨ s.addr + s.bytes.length ≤ a) :
    (m.store s).read n a = m.read n a := by
  apply read_congr
  intro b above below
  apply store_of_not_covers
  unfold Store.Covers
  omega

theorem read_apply_of_disjoint {n a : Nat} {stores : List Store} (m : Mem)
    (disjoint : ∀ s ∈ stores, a + n ≤ s.addr ∨ s.addr + s.bytes.length ≤ a) :
    (m.apply stores).read n a = m.read n a := by
  apply read_congr
  intro b above below
  apply apply_of_not_covers
  intro s member
  have apart := disjoint s member
  unfold Store.Covers
  omega

theorem read_apply_of_within {n a low high : Nat} {stores : List Store} (m : Mem)
    (within : ∀ s ∈ stores, s.Within low high) (apart : a + n ≤ low ∨ high ≤ a) :
    (m.apply stores).read n a = m.read n a := by
  refine read_apply_of_disjoint m fun s member => ?_
  have := within s member
  unfold Store.Within at this
  omega

/-! ## Byte strings -/

/-- `n` bytes from an address on. -/
def bytesAt (m : Mem) : Nat → Nat → List Byte
  | 0, _ => []
  | n + 1, a => m a :: m.bytesAt n (a + 1)

/-- The stores of a byte-by-byte copy. -/
def copy (a : Nat) : List Byte → List Store
  | [] => []
  | b :: rest => ⟨a, [b]⟩ :: copy (a + 1) rest

@[simp] theorem length_bytesAt (m : Mem) (n a : Nat) : (m.bytesAt n a).length = n := by
  induction n generalizing a with
  | zero => rfl
  | succ n inductionHypothesis => simp [bytesAt, inductionHypothesis]

theorem bytesAt_congr {m m' : Mem} {n a : Nat} (same : ∀ b, a ≤ b → b < a + n → m b = m' b) :
    m.bytesAt n a = m'.bytesAt n a := by
  induction n generalizing a with
  | zero => rfl
  | succ n inductionHypothesis =>
      rw [bytesAt, bytesAt, same a le_rfl (by omega), inductionHypothesis fun b above below =>
        same b (by omega) (by omega)]

theorem bytesAt_add (m : Mem) (n k a : Nat) :
    m.bytesAt (n + k) a = m.bytesAt n a ++ m.bytesAt k (a + n) := by
  induction n generalizing a with
  | zero => simp [bytesAt]
  | succ n inductionHypothesis =>
      rw [Nat.succ_add, bytesAt, inductionHypothesis, bytesAt, List.cons_append, Nat.add_assoc,
        Nat.add_comm 1 n]

theorem take_bytesAt (m : Mem) {k n : Nat} (few : k ≤ n) (a : Nat) :
    (m.bytesAt n a).take k = m.bytesAt k a := by
  obtain ⟨rest, rfl⟩ := Nat.exists_eq_add_of_le few
  rw [bytesAt_add, List.take_left' (length_bytesAt m k a)]

/-- A stored byte string is read back. -/
theorem bytesAt_store_self (m : Mem) (a : Nat) (bytes : List Byte) :
    (m.store ⟨a, bytes⟩).bytesAt bytes.length a = bytes := by
  have tail : ∀ (n i : Nat), i + n = bytes.length →
      (m.store ⟨a, bytes⟩).bytesAt n (a + i) = bytes.drop i := by
    intro n
    induction n with
    | zero =>
        intro i whole
        rw [bytesAt, List.drop_of_length_le (by omega)]
    | succ n inductionHypothesis =>
        intro i whole
        have inside : i < bytes.length := by omega
        have byte : m.store ⟨a, bytes⟩ (a + i) = bytes[i] := by
          simp [store, List.getElem?_eq_getElem inside]
        rw [bytesAt, byte, Nat.add_assoc, inductionHypothesis (i + 1) (by omega),
          List.drop_eq_getElem_cons inside]
  simpa using tail bytes.length 0 (by omega)

/-- The bytes of a store are in memory. -/
def Shows (m : Mem) (s : Store) : Prop := m.bytesAt s.bytes.length s.addr = s.bytes

/-- Among stores that do not overlap, the bytes of each stay. -/
theorem shows_apply_of_mem {stores : List Store} (apart : stores.Pairwise Store.Apart) {s : Store}
    (member : s ∈ stores) (m : Mem) : (m.apply stores).Shows s := by
  refine Eq.trans ?_ (bytesAt_store_self m s.addr s.bytes)
  exact bytesAt_congr fun b above below => apply_eq_store_of_mem apart member ⟨above, below⟩ m

theorem Shows.congr {m m' : Mem} {s : Store} (shows_ : m.Shows s)
    (same : ∀ b, s.Covers b → m' b = m b) : m'.Shows s := by
  refine Eq.trans ?_ shows_
  exact bytesAt_congr fun b above below => same b ⟨above, below⟩

theorem getElem?_bytesAt (m : Mem) {n i : Nat} (a : Nat) (bound : i < n) :
    (m.bytesAt n a)[i]? = some (m (a + i)) := by
  induction n generalizing a i with
  | zero => omega
  | succ n inductionHypothesis =>
      cases i with
      | zero => rfl
      | succ i =>
          rw [bytesAt, List.getElem?_cons_succ, inductionHypothesis (a + 1) (by omega)]
          congr 2
          omega

theorem Shows.read_eq {m : Mem} {n a value : Nat} (shows_ : m.Shows (scalar n a value))
    (fits : value < 256 ^ n) : m.read n a = value := by
  unfold Shows at shows_
  simp only [scalar, length_leBytes] at shows_
  rw [← Nat.mod_eq_of_lt fits]
  apply read_of_leBytes
  intro i bound
  rw [← shows_, getElem?_bytesAt m a bound]

/-- Among stores that do not overlap, a scalar is read back. -/
theorem read_apply_of_mem {stores : List Store} (apart : stores.Pairwise Store.Apart)
    {n a value : Nat} (member : scalar n a value ∈ stores) (fits : value < 256 ^ n) (m : Mem) :
    (m.apply stores).read n a = value :=
  (shows_apply_of_mem apart member m).read_eq fits

/-- A copy leaves the bytes it copies. -/
theorem apply_copy (m : Mem) (a : Nat) (bytes : List Byte) :
    m.apply (copy a bytes) = m.store ⟨a, bytes⟩ := by
  induction bytes generalizing m a with
  | nil =>
      funext x
      rw [copy, apply_nil, store_of_not_covers]
      simp [Store.Covers]
  | cons b rest inductionHypothesis =>
      rw [copy, apply_cons, inductionHypothesis]
      funext x
      rcases Nat.lt_trichotomy x a with before | same | after
      · rw [store_of_not_covers (by simp [Store.Covers]; omega),
          store_of_not_covers (by simp [Store.Covers]; omega),
          store_of_not_covers (by simp [Store.Covers]; omega)]
      · subst same
        rw [store_of_not_covers (by simp [Store.Covers])]
        simp [store]
      · obtain ⟨k, rfl⟩ : ∃ k, x = a + 1 + k := ⟨x - (a + 1), by omega⟩
        have index : a + 1 + k - a = k + 1 := by omega
        simp [store, index, show a ≤ a + 1 + k by omega]

/-- The end of a byte string that a second store covers does not matter. -/
theorem store_store_overlap (m : Mem) (a : Nat) (kept lost bytes : List Byte)
    (covered : lost.length ≤ bytes.length) :
    (m.store ⟨a, kept ++ lost⟩).store ⟨a + kept.length, bytes⟩ =
      (m.store ⟨a, kept⟩).store ⟨a + kept.length, bytes⟩ := by
  funext x
  by_cases inside : (⟨a + kept.length, bytes⟩ : Store).Covers x
  · exact store_of_covers inside
  · rw [store_of_not_covers inside, store_of_not_covers inside]
    simp only [Store.Covers, not_and, not_lt] at inside
    by_cases early : x < a + kept.length
    · by_cases above : a ≤ x
      · have index : x - a < kept.length := by omega
        simp only [store, above, if_true, List.getElem?_append_left index]
      · simp only [store, above, if_false]
    · have behind := inside (by omega)
      rw [store_of_not_covers (by simp only [Store.Covers, List.length_append]; omega),
        store_of_not_covers (by simp only [Store.Covers]; omega)]

theorem copy_within {a : Nat} {bytes : List Byte} {s : Store} (member : s ∈ copy a bytes) :
    s.Within a (a + bytes.length) := by
  induction bytes generalizing a with
  | nil => simp [copy] at member
  | cons b rest inductionHypothesis =>
      rcases List.mem_cons.mp member with rfl | later
      · simp [Store.Within]
      · exact (inductionHypothesis later).mono (by omega) (by simp; omega)

end Mem

end Lupin.Memory
