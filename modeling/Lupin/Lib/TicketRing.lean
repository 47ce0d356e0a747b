import Mathlib.Data.List.Basic
import Mathlib.Data.Nat.ModEq
import Mathlib.Logic.Function.Basic

/-!
# Rings whose cells are given out by ticket

Tickets are numbered from 0, and ticket `k` stores its value into cell `k % size`. `issued` are
the values of all tickets, `taken` of them have been taken out again, and `pending` are the
tickets that have not stored yet. A cell without a value holds `empty`; nothing keeps a ticket
from having `empty` as its value.
-/

namespace Lupin.TicketRing

variable {α : Type*}

/-- The cells agree with the tickets. -/
structure Agrees (size : Nat) (empty : α) (cells : Nat → α) (issued : List α) (taken : Nat)
    (pending : Nat → Prop) : Prop where
  taken_le : taken ≤ issued.length
  few : issued.length ≤ taken + size
  outstanding : ∀ k, pending k → taken ≤ k ∧ k < issued.length
  unstored : ∀ k, pending k → cells (k % size) = empty
  stored : ∀ k value, taken ≤ k → issued[k]? = some value → ¬ pending k → cells (k % size) = value
  vacant : ∀ k, issued.length ≤ k → k < taken + size → cells (k % size) = empty

/-- Less than a round apart, tickets have different cells. -/
theorem cell_ne {size i k : Nat} (later : i < k) (near : k < i + size) : i % size ≠ k % size := by
  intro same
  have shift : k - i < size := by omega
  have divides := (Nat.modEq_iff_dvd' later.le).mp same
  exact absurd (Nat.le_of_dvd (by omega) divides) (by omega)

variable {size taken : Nat} {empty : α} {cells : Nat → α} {issued : List α} {pending : Nat → Prop}

theorem agrees_initial (size : Nat) (empty : α) :
    Agrees size empty (fun _ => empty) [] 0 (fun _ => False) where
  taken_le := le_rfl
  few := Nat.zero_le _
  outstanding _ pending := pending.elim
  unstored _ pending := pending.elim
  stored k value _ isIssued := by simp at isIssued
  vacant _ _ _ := rfl

/-- Only which tickets are pending matters. -/
theorem Agrees.congr (agrees : Agrees size empty cells issued taken pending)
    {pending' : Nat → Prop} (same : ∀ k, pending' k ↔ pending k) :
    Agrees size empty cells issued taken pending' := by
  rwa [show pending' = pending from funext fun k => propext (same k)]

/-- Different tickets of one round have different cells. -/
theorem cell_ne_of_ne {i k : Nat} (first : taken ≤ i) (second : taken ≤ k)
    (bound : i < taken + size) (bound' : k < taken + size) (different : i ≠ k) :
    i % size ≠ k % size := by
  rcases Nat.lt_or_gt_of_ne different with before | after
  · exact cell_ne before (by omega)
  · exact (cell_ne after (by omega)).symm

/-- A ticket is drawn. -/
theorem Agrees.issue (agrees : Agrees size empty cells issued taken pending) (value : α)
    (room : issued.length < taken + size) :
    Agrees size empty cells (issued ++ [value]) taken
      (fun k => pending k ∨ k = issued.length) where
  taken_le := by
    have := agrees.taken_le
    simp only [List.length_append]
    omega
  few := by
    simp only [List.length_append, List.length_singleton]
    omega
  outstanding := by
    rintro k (old | rfl)
    · have := agrees.outstanding k old
      simp only [List.length_append]
      omega
    · exact ⟨agrees.taken_le, by simp⟩
  unstored := by
    rintro k (old | rfl)
    · exact agrees.unstored k old
    · exact agrees.vacant _ le_rfl room
  stored := by
    intro k value' notTaken isIssued stored
    rw [not_or] at stored
    by_cases old : k < issued.length
    · rw [List.getElem?_append_left old] at isIssued
      exact agrees.stored k value' notTaken isIssued stored.1
    · have beyond : (issued ++ [value])[k]? = none := by
        rw [List.getElem?_eq_none]
        simp only [List.length_append, List.length_singleton]
        omega
      rw [beyond] at isIssued
      exact absurd isIssued (by simp)
  vacant k later := by
    simp only [List.length_append] at later
    exact agrees.vacant k (by omega)

/-- A pending ticket stores its value. -/
theorem Agrees.store (agrees : Agrees size empty cells issued taken pending) {k : Nat} {value : α}
    (waits : pending k) (isIssued : issued[k]? = some value) :
    Agrees size empty (Function.update cells (k % size) value) issued taken
      (fun i => pending i ∧ i ≠ k) := by
  have place := agrees.outstanding k waits
  have few := agrees.few
  have others : ∀ i, taken ≤ i → i < taken + size → i ≠ k →
      Function.update cells (k % size) value (i % size) = cells (i % size) :=
    fun i low high other =>
    Function.update_of_ne (cell_ne_of_ne low place.1 high (by omega) other) _ _
  refine ⟨agrees.taken_le, few, fun i waiting => agrees.outstanding i waiting.1, ?_, ?_, ?_⟩
  · intro i waiting
    have bounds := agrees.outstanding i waiting.1
    rw [others i bounds.1 (by omega) waiting.2]
    exact agrees.unstored i waiting.1
  · intro i value' notTaken isIssued' stored
    by_cases here : i = k
    · subst here
      rw [isIssued] at isIssued'
      rw [Function.update_self]
      exact Option.some.inj isIssued'
    · obtain ⟨bound, _⟩ := List.getElem?_eq_some_iff.mp isIssued'
      rw [others i notTaken (by omega) here]
      exact agrees.stored i value' notTaken isIssued' fun waiting => stored ⟨waiting, here⟩
  · intro i later bound
    rw [others i (by have := agrees.taken_le; omega) bound (by omega)]
    exact agrees.vacant i later bound

/-- What is found in the cell of the oldest ticket that is outstanding is its value. -/
theorem Agrees.oldest (agrees : Agrees size empty cells issued taken pending)
    (positive : 0 < size) (found : cells (taken % size) ≠ empty) :
    ¬ pending taken ∧ issued[taken]? = some (cells (taken % size)) := by
  have stored : ¬ pending taken := fun waits => found (agrees.unstored taken waits)
  have inside : taken < issued.length := by
    by_contra beyond
    exact found (agrees.vacant taken (by omega) (by omega))
  refine ⟨stored, ?_⟩
  have value := List.getElem?_eq_getElem inside
  rw [value, agrees.stored taken _ le_rfl value stored]

/-- Taking the value of the oldest ticket empties its cell. -/
theorem Agrees.take (agrees : Agrees size empty cells issued taken pending)
    (positive : 0 < size) (found : cells (taken % size) ≠ empty) :
    Agrees size empty (Function.update cells (taken % size) empty) issued (taken + 1) pending := by
  obtain ⟨stored, value⟩ := agrees.oldest positive found
  obtain ⟨inside, _⟩ := List.getElem?_eq_some_iff.mp value
  have few := agrees.few
  have others : ∀ i, taken < i → i < taken + size →
      Function.update cells (taken % size) empty (i % size) = cells (i % size) := fun i low high =>
    Function.update_of_ne (cell_ne low high).symm _ _
  have later : ∀ k, pending k → taken < k ∧ k < issued.length := by
    intro k waits
    have bounds := agrees.outstanding k waits
    have : k ≠ taken := fun same => stored (same ▸ waits)
    omega
  refine ⟨by omega, by omega, fun k waits => by have := later k waits; omega, ?_, ?_, ?_⟩
  · intro k waits
    have bounds := later k waits
    rw [others k bounds.1 (by omega)]
    exact agrees.unstored k waits
  · intro k value' notTaken isIssued isStored
    obtain ⟨bound, _⟩ := List.getElem?_eq_some_iff.mp isIssued
    rw [others k (by omega) (by omega)]
    exact agrees.stored k value' (by omega) isIssued isStored
  · intro k past bound
    by_cases last : k = taken + size
    · subst last
      rw [Nat.add_mod_right, Function.update_self]
    · rw [others k (by omega) (by omega)]
      exact agrees.vacant k past (by omega)

end Lupin.TicketRing
