import Mathlib.Logic.Function.Basic
import Lupin.Lib.TopBit
import Lupin.Lib.Transition

/-!
# Words with a dirty bit

`persist_cas.h` in the `CACHELINE_GRANULAR` build. A word has a cached copy, which all
accesses go to, and a durable copy, which only a write-back of its line changes. A new value
is stored with `DIRTY_64` set; who loads it writes the line back and clears the bit with a
compare and swap from the loaded value. Every access and every write-back is one step.

The swap compares values, so it also succeeds when the word has left the loaded value and
come back to it since the write-back. `clean_word_durable_of_unwritten` states what holds
when no swap meets that.
-/

namespace Lupin.Persist

open Lupin.TopBit Lupin.Transition

abbrev Word := BitVec 64

/-- `DIRTY_64`. -/
def dirty64 : Word := 1#64 <<< 63

/-- `CLEAR_DIRTY_64`. -/
def clearDirty64 : Word := ~~~dirty64

/-- The bit is clear. -/
def clean (w : Word) : Bool := w &&& dirty64 == 0

/-- The functions on a word, with their arguments. -/
inductive Op where
  /-- `pcas_read_uint64`. -/
  | read
  /-- `persist_cas_uint64`. -/
  | cas (exp desire : Word)
  /-- `persist_atomic_write_uint64`. -/
  | write (val : Word)
deriving DecidableEq

/-- The arguments are below 2^63. -/
def Op.small : Op → Bool
  | .read => true
  | .cas exp desire => clean exp && clean desire
  | .write val => clean val

/-- The next atomic step of a thread. `pcas_read_uint64` is a call of its own or the first
part of `persist_cas_uint64`, which then swaps as `after` says. -/
inductive Pc where
  | idle
  /-- `pcas_read_uint64`: the load, the write-back, and the swap that clears the bit. With the
  swap goes how often the word had been written at the write-back. -/
  | load (after : Option (Word × Word))
  | flush (val : Word) (after : Option (Word × Word))
  | clear (val : Word) (written : Nat) (after : Option (Word × Word))
  /-- `persist_cas_uint64`: its own swap. -/
  | swap (exp desire : Word)
  /-- `persist_atomic_write_uint64`: the store and the write-back. -/
  | store (val : Word)
  | writeFlush
deriving DecidableEq

def Op.start : Op → Pc
  | .read => .load none
  | .cas exp desire => .load (some (exp, desire))
  | .write val => .store val

/-- The two copies and the threads; `written` counts the stores and swaps of new values. -/
structure State where
  cached : Word
  durable : Word
  written : Nat
  pc : Nat → Pc

inductive Action where
  | call (thread : Nat) (op : Op)
  | advance (thread : Nat)
  /-- The line is written back on its own. -/
  | writeBack

def State.setPc (σ : State) (thread : Nat) (pc : Pc) : State :=
  { σ with pc := Function.update σ.pc thread pc }

theorem State.setPc_self (σ : State) (thread : Nat) (pc : Pc) :
    (σ.setPc thread pc).pc thread = pc :=
  Function.update_self ..

theorem State.setPc_other (σ : State) {thread other : Nat} (pc : Pc) (different : other ≠ thread) :
    (σ.setPc thread pc).pc other = σ.pc other :=
  Function.update_of_ne different ..

/-- `shmem_output_cacheline` on the word. -/
def State.outputCacheline (σ : State) : State := { σ with durable := σ.cached }

/-- A new value for the word. -/
def State.install (σ : State) (val : Word) : State :=
  { σ with cached := val ||| dirty64, written := σ.written + 1 }

/-- Behind `pcas_read_uint64`. -/
def afterRead : Option (Word × Word) → Pc
  | none => .idle
  | some (exp, desire) => .swap exp desire

def advanceThread (σ : State) (thread : Nat) : Option State :=
  match σ.pc thread with
  | .idle => none
  | .load after =>
      some (σ.setPc thread
        (if clean σ.cached then afterRead after else .flush σ.cached after))
  | .flush val after => some (σ.outputCacheline.setPc thread (.clear val σ.written after))
  | .clear val _ after =>
      some ((if σ.cached = val then { σ with cached := val &&& clearDirty64 } else σ).setPc thread
        (afterRead after))
  | .swap exp desire =>
      some ((if σ.cached = exp then σ.install desire else σ).setPc thread .idle)
  | .store val => some ((σ.install val).setPc thread .writeFlush)
  | .writeFlush => some (σ.outputCacheline.setPc thread .idle)

def step (σ : State) : Action → Option State
  | .call thread op =>
      if σ.pc thread = .idle ∧ op.small then some (σ.setPc thread op.start) else none
  | .advance thread => advanceThread σ thread
  | .writeBack => some σ.outputCacheline

/-- Threads on a word that starts clean with both copies equal. -/
def word (init : Word) : Machine State Action where
  initial := ⟨init &&& clearDirty64, init &&& clearDirty64, 0, fun _ => .idle⟩
  step := step

/-! ## The property -/

/-- A clean word has its value in the durable copy. -/
def Durable (σ : State) : Prop := clean σ.cached → σ.durable &&& clearDirty64 = σ.cached

/-- No swap clears the bit of a word that was written since the thread's write-back. -/
def unwritten (σ : State) : Action → Bool
  | .advance thread =>
      match σ.pc thread with
      | .clear val written _ => σ.cached ≠ val || σ.written = written
      | _ => true
  | _ => true

/-! ## Bits -/

theorem clean_iff {w : Word} : clean w = true ↔ w &&& topBit = 0 := beq_iff_eq

theorem not_clean_install (w : Word) : clean (w ||| dirty64) = false := by
  rw [Bool.eq_false_iff, ne_eq, clean_iff]
  exact or_topBit_ne w

theorem masked_of_clean {w : Word} (isClean : clean w = true) : w &&& clearDirty64 = w :=
  rest_of_clear (clean_iff.mp isClean)

theorem masked_masked (w : Word) : w &&& clearDirty64 &&& clearDirty64 = w &&& clearDirty64 :=
  rest_rest w

/-! ## Runs -/

/-- What holds in every state: a clean word is durable, and so is the value of a word that was
not written since a thread wrote it back. -/
structure Invariant (σ : State) : Prop where
  durable : Durable σ
  kept : ∀ thread val after, σ.pc thread = .clear val σ.written after →
    σ.durable &&& clearDirty64 = σ.cached &&& clearDirty64
  recorded : ∀ thread val written after, σ.pc thread = .clear val written after →
    written ≤ σ.written

section Steps

variable {σ : State} {thread : Nat} {pc : Pc}

/-- A thread that does not come to a clearing swap. -/
theorem Invariant.setPc (invariant : Invariant σ)
    (other : ∀ val written after, pc ≠ .clear val written after) :
    Invariant (σ.setPc thread pc) := by
  have before : ∀ {t val written after}, (σ.setPc thread pc).pc t = .clear val written after →
      σ.pc t = .clear val written after := by
    intro t val written after here
    by_cases same : t = thread
    · subst same
      rw [State.setPc_self] at here
      exact absurd here (other _ _ _)
    · rwa [State.setPc_other _ _ same] at here
  exact ⟨invariant.durable, fun t val after here => invariant.kept t val after (before here),
    fun t val written after here => invariant.recorded t val written after (before here)⟩

theorem Invariant.outputCacheline (invariant : Invariant σ) : Invariant σ.outputCacheline :=
  ⟨fun isClean => masked_of_clean isClean, fun _ _ _ _ => rfl, invariant.recorded⟩

/-- A thread that has just written the line back comes to its clearing swap. -/
theorem Invariant.flush (invariant : Invariant σ) (val : Word) (after : Option (Word × Word)) :
    Invariant (σ.outputCacheline.setPc thread (.clear val σ.written after)) := by
  refine ⟨invariant.outputCacheline.durable, fun _ _ _ _ => rfl, fun t v written next here => ?_⟩
  by_cases same : t = thread
  · subst same
    rw [State.setPc_self] at here
    injection here with _ isWritten
    exact Nat.le_of_eq isWritten.symm
  · rw [State.setPc_other _ _ same] at here
    exact invariant.recorded t v written next here

/-- A new value is dirty, and later than every write-back so far. -/
theorem Invariant.install (invariant : Invariant σ) (val : Word) : Invariant (σ.install val) := by
  refine ⟨fun isClean => ?_, fun t v next here => ?_, fun t v written next here => ?_⟩
  · rw [State.install, not_clean_install] at isClean
    exact absurd isClean Bool.false_ne_true
  · have := invariant.recorded t v _ next here
    simp only [State.install] at this
    omega
  · exact Nat.le_succ_of_le (invariant.recorded t v written next here)

/-- Clearing the bit of a word that was not written since the write-back. -/
theorem Invariant.clear (invariant : Invariant σ) {val : Word} {after : Option (Word × Word)}
    (here : σ.pc thread = .clear val σ.written after) (same : σ.cached = val) :
    Invariant { σ with cached := val &&& clearDirty64 } := by
  have kept := invariant.kept thread val after here
  rw [same] at kept
  refine ⟨fun _ => kept, fun t v next _ => ?_, invariant.recorded⟩
  rw [masked_masked]
  exact kept

theorem afterRead_ne_clear (after : Option (Word × Word)) (val : Word) (written : Nat)
    (next : Option (Word × Word)) : afterRead after ≠ .clear val written next := by
  cases after <;> exact Pc.noConfusion

theorem Invariant.advance (invariant : Invariant σ) {next : State}
    (transition : advanceThread σ thread = some next)
    (allowed : unwritten σ (.advance thread) = true) : Invariant next := by
  unfold advanceThread at transition
  cases here : σ.pc thread with
  | idle =>
      rw [here] at transition
      exact absurd transition (by simp)
  | load after =>
      rw [here] at transition
      obtain rfl := Option.some.inj transition
      refine invariant.setPc fun val written following => ?_
      split
      · exact afterRead_ne_clear _ _ _ _
      · exact Pc.noConfusion
  | flush val after =>
      rw [here] at transition
      obtain rfl := Option.some.inj transition
      exact invariant.flush val after
  | clear val written after =>
      rw [here] at transition
      obtain rfl := Option.some.inj transition
      refine Invariant.setPc ?_ (afterRead_ne_clear _)
      split
      · rename_i same
        simp only [unwritten, here, same, ne_eq, not_true_eq_false, decide_false, Bool.false_or,
          decide_eq_true_eq] at allowed
        exact invariant.clear (allowed ▸ here) same
      · exact invariant
  | swap exp desire =>
      rw [here] at transition
      obtain rfl := Option.some.inj transition
      refine Invariant.setPc ?_ fun _ _ _ => Pc.noConfusion
      split
      · exact invariant.install desire
      · exact invariant
  | store val =>
      rw [here] at transition
      obtain rfl := Option.some.inj transition
      exact (invariant.install val).setPc fun _ _ _ => Pc.noConfusion
  | writeFlush =>
      rw [here] at transition
      obtain rfl := Option.some.inj transition
      exact invariant.outputCacheline.setPc fun _ _ _ => Pc.noConfusion

theorem Invariant.step (invariant : Invariant σ) {action : Action} {next : State}
    (transition : step σ action = some next) (allowed : unwritten σ action = true) :
    Invariant next := by
  cases action with
  | call thread op =>
      simp only [Persist.step] at transition
      split at transition
      · obtain rfl := Option.some.inj transition
        refine invariant.setPc fun val written after => ?_
        cases op <;> exact Pc.noConfusion
      · exact absurd transition (by simp)
  | advance thread => exact invariant.advance transition allowed
  | writeBack =>
      obtain rfl := Option.some.inj transition
      exact invariant.outputCacheline

end Steps

/-- While no swap clears the bit of a word that was written since the thread's write-back, a
clean word has its value in the durable copy. -/
theorem clean_word_durable_of_unwritten (init : Word) {σ : State}
    (reached : (word init).Reachable (fun σ action _ => unwritten σ action = true) σ) :
    Durable σ := by
  have invariant : Invariant σ := Machine.Reachable.invariant
    ⟨fun _ => masked_masked init, fun _ _ _ here => absurd here Pc.noConfusion,
      fun _ _ _ _ here => absurd here Pc.noConfusion⟩
    (fun before transition allowed => before.step transition allowed) reached
  exact invariant.durable

/-- One thread installs 1 with a swap and reads it. -/
def swapAndRead : List Action :=
  [.call 1 (.cas 0 1), .advance 1, .advance 1, .call 0 .read, .advance 0, .advance 0, .advance 0]

theorem clean_word_durable_of_unwritten_swapAndRead :
    clean ((word 0).final swapAndRead).cached = true ∧ Durable ((word 0).final swapAndRead) :=
  ⟨by decide +kernel, clean_word_durable_of_unwritten 0
    (Machine.reachable_final (fun σ action _ => unwritten σ action) (fun _ _ _ meets => meets)
      swapAndRead (by decide +kernel))⟩

/-- Thread 0 has written back 1 and is about to clear the bit; thread 1 then swaps 1 for 2, and
2, once it is durable, for 1 again. -/
def swappedBack : List Action :=
  [.call 1 (.cas 0 1), .advance 1, .advance 1, .call 0 .read, .advance 0, .advance 0,
    .call 1 (.cas 1 2), .advance 1, .advance 1, .advance 1, .advance 1,
    .call 1 (.cas 2 1), .advance 1, .advance 1, .advance 1, .advance 1, .advance 0]

/-- The late swap of thread 0 clears the bit of a value that is not durable. -/
theorem late_clear_loses_value :
    ∃ σ, (word 0).Reachable (fun _ _ _ => True) σ ∧ clean σ.cached = true ∧
      σ.durable &&& clearDirty64 ≠ σ.cached :=
  ⟨(word 0).final swappedBack,
    Machine.reachable_final (fun _ _ _ => true) (fun _ _ _ _ => trivial) swappedBack
      (by decide +kernel), by decide +kernel, by decide +kernel⟩

end Lupin.Persist
