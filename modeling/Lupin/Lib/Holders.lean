import Mathlib.Algebra.BigOperators.Ring.Finset
import Mathlib.Algebra.Order.BigOperators.Group.Finset
import Mathlib.Data.Fintype.Basic
import Mathlib.Logic.Function.Basic

/-!
# Locks with their holders, and counters with their sources

Two bookkeeping facts of programs whose threads take locks and count themselves in shared
counters. A thread holds one lock at most, and adds to one counter at most; both are functions
of where it is in its program, so a step changes them for one thread.
-/

namespace Lupin.Holders

variable {Thread Resource : Type*} [DecidableEq Thread] [DecidableEq Resource]

/-- The owner that each lock records is the thread that holds it. -/
def Agrees (owner : Resource → Option Thread) (held : Thread → Option Resource) : Prop :=
  ∀ resource thread, owner resource = some thread ↔ held thread = some resource

section Agrees

variable {owner : Resource → Option Thread} {held : Thread → Option Resource}
variable {thread other : Thread} {resource : Resource}

omit [DecidableEq Thread] [DecidableEq Resource] in
theorem Agrees.unique (agrees : Agrees owner held) (first : held thread = some resource)
    (second : held other = some resource) : thread = other := by
  have both : some thread = some other :=
    ((agrees resource thread).mpr first).symm.trans ((agrees resource other).mpr second)
  exact Option.some.inj both

theorem Agrees.acquire (agrees : Agrees owner held) (free : owner resource = none)
    (idle : held thread = none) :
    Agrees (Function.update owner resource (some thread))
      (Function.update held thread (some resource)) := by
  intro r t
  have nobody : held t ≠ some resource := fun holds => by
    simpa [free] using (agrees resource t).mpr holds
  rcases eq_or_ne r resource with rfl | otherLock
  · rcases eq_or_ne t thread with rfl | otherThread
    · simp
    · simp [otherThread, otherThread.symm, nobody]
  · rcases eq_or_ne t thread with rfl | otherThread
    · simpa [otherLock, otherLock.symm, idle] using agrees r t
    · simpa [otherLock, otherThread] using agrees r t

theorem Agrees.release (agrees : Agrees owner held) (holds : held thread = some resource) :
    Agrees (Function.update owner resource none) (Function.update held thread none) := by
  intro r t
  rcases eq_or_ne r resource with rfl | otherLock
  · rcases eq_or_ne t thread with rfl | otherThread
    · simp
    · have nobody : held t ≠ some r := fun alsoHolds => otherThread (agrees.unique alsoHolds holds)
      simp [otherThread, nobody]
  · rcases eq_or_ne t thread with rfl | otherThread
    · have notThis : held t ≠ some r := by
        rw [holds]
        exact fun same => otherLock (Option.some.inj same).symm
      simpa [otherLock, notThis] using agrees r t
    · simpa [otherLock, otherThread] using agrees r t

omit [DecidableEq Resource] in
/-- A thread goes on with the lock it has, or with none. -/
theorem Agrees.keep (agrees : Agrees owner held) {now : Option Resource}
    (same : now = held thread) : Agrees owner (Function.update held thread now) := by
  rwa [same, Function.update_eq_self]

end Agrees

/-! ## Counters -/

/-- One where the two agree, zero elsewhere. -/
def share (source : Option Resource) (resource : Resource) : Int :=
  if source = some resource then 1 else 0

@[simp] theorem share_none (resource : Resource) : share none resource = 0 := by simp [share]

@[simp] theorem share_some (first second : Resource) :
    share (some first) second = if first = second then 1 else 0 := by simp [share]

theorem share_nonneg (source : Option Resource) (resource : Resource) :
    0 ≤ share source resource := by
  unfold share
  split <;> decide

section Count

variable [Fintype Thread] {sources : Thread → Option Resource} {resource : Resource}

/-- How many threads add to a counter. -/
def count (sources : Thread → Option Resource) (resource : Resource) : Int :=
  ∑ thread, share (sources thread) resource

omit [DecidableEq Thread] in
theorem count_eq_card : count sources resource =
    (Finset.univ.filter fun thread => sources thread = some resource).card := by
  simp [count, share, Finset.sum_boole]

/-- One thread changes the counter it adds to. -/
theorem count_update (thread : Thread) (source : Option Resource) :
    count (Function.update sources thread source) resource =
      count sources resource - share (sources thread) resource + share source resource := by
  unfold count
  rw [← Finset.add_sum_erase _ _ (Finset.mem_univ thread),
    ← Finset.add_sum_erase (f := fun t => share (sources t) resource) _ (Finset.mem_univ thread)]
  have others : ∑ t ∈ Finset.univ.erase thread,
      share (Function.update sources thread source t) resource =
      ∑ t ∈ Finset.univ.erase thread, share (sources t) resource := by
    refine Finset.sum_congr rfl fun t member => ?_
    rw [Function.update_of_ne (Finset.ne_of_mem_erase member)]
  rw [others, Function.update_self]
  omega

omit [DecidableEq Thread] in
theorem count_nonneg : 0 ≤ count sources resource :=
  Finset.sum_nonneg fun _ _ => share_nonneg _ _

omit [DecidableEq Thread] in
/-- A thread that adds to a counter is counted. -/
theorem count_pos {thread : Thread} (adds : sources thread = some resource) :
    0 < count sources resource := by
  rw [count_eq_card]
  exact_mod_cast Finset.card_pos.mpr ⟨thread, by simp [adds]⟩

end Count

end Lupin.Holders
