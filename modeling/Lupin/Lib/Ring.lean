import Mathlib.Data.List.Basic
import Mathlib.Logic.Function.Basic

/-!
# Ring buffers with one slot left open

A ring of `size` cells with a read and a write position below `size`; equal
positions mean empty, so at most `size - 1` cells are occupied. `contents` is
the FIFO view the operations are stated against.
-/

namespace Lupin.Ring

variable {α : Type*} {size read write : Nat} {data : Nat → α}

/-- How many cells are occupied. -/
def occupied (size read write : Nat) : Nat := (write + size - read) % size

/-- The position after `position`. -/
def advance (size position : Nat) : Nat := (position + 1) % size

/-- The occupied cells, oldest first. -/
def contents (size : Nat) (data : Nat → α) (read write : Nat) : List α :=
  (List.range (occupied size read write)).map fun i => data ((read + i) % size)

theorem advance_lt (position : Nat) (positive : 0 < size) : advance size position < size :=
  Nat.mod_lt _ positive

private theorem occupied_eq (readBound : read < size) (writeBound : write < size) :
    occupied size read write = if read ≤ write then write - read else write + size - read := by
  unfold occupied
  split
  · rename_i ordered
    rw [show write + size - read = (write - read) + size by omega, Nat.add_mod_right]
    exact Nat.mod_eq_of_lt (by omega)
  · exact Nat.mod_eq_of_lt (by omega)

theorem occupied_lt (readBound : read < size) (writeBound : write < size) :
    occupied size read write < size := by
  rw [occupied_eq readBound writeBound]
  split <;> omega

@[simp] theorem contents_empty (bound : read < size) : contents size data read read = [] := by
  simp [contents, occupied_eq bound bound]

private theorem advance_eq {position : Nat} (bound : position < size) :
    advance size position = if position + 1 = size then 0 else position + 1 := by
  unfold advance
  split
  · rename_i last
    rw [last, Nat.mod_self]
  · exact Nat.mod_eq_of_lt (by omega)

private theorem occupied_push (readBound : read < size) (writeBound : write < size)
    (notFull : advance size write ≠ read) :
    occupied size read (advance size write) = occupied size read write + 1 := by
  have nextBound : advance size write < size := advance_lt write (by omega)
  rw [occupied_eq readBound writeBound, occupied_eq readBound nextBound]
  rw [advance_eq writeBound] at notFull ⊢
  by_cases last : write + 1 = size
  · simp only [last, if_true] at notFull ⊢
    rw [if_neg (by omega), if_pos (by omega)]
    omega
  · simp only [last, if_false] at notFull ⊢
    by_cases ordered : read ≤ write
    · rw [if_pos (by omega), if_pos ordered]
      omega
    · rw [if_neg (by omega), if_neg ordered]
      omega

/-- The write position is the cell after the occupied ones. -/
theorem write_eq (readBound : read < size) (writeBound : write < size) :
    (read + occupied size read write) % size = write := by
  rw [occupied_eq readBound writeBound]
  split
  · rw [show read + (write - read) = write by omega]
    exact Nat.mod_eq_of_lt writeBound
  · rw [show read + (write + size - read) = write + size by omega, Nat.add_mod_right]
    exact Nat.mod_eq_of_lt writeBound

private theorem occupied_cell_ne (readBound : read < size) (writeBound : write < size) {i : Nat}
    (within : i < occupied size read write) : (read + i) % size ≠ write := by
  have total := occupied_lt readBound writeBound
  have last := write_eq readBound writeBound
  intro same
  rw [← last] at same
  have noWrap : ∀ k, k < size → (read + k) % size =
      if read + k < size then read + k else read + k - size := by
    intro k bound
    split
    · exact Nat.mod_eq_of_lt ‹_›
    · rw [Nat.mod_eq_sub_mod (by omega)]
      exact Nat.mod_eq_of_lt (by omega)
  rw [noWrap i (by omega), noWrap _ total] at same
  split at same <;> split at same <;> omega

/-- Storing into the open cell is invisible. -/
theorem contents_store (readBound : read < size) (writeBound : write < size) (value : α) :
    contents size (Function.update data write value) read write =
      contents size data read write := by
  unfold contents
  apply List.map_congr_left
  intro i member
  have within := List.mem_range.mp member
  rw [Function.update_of_ne (occupied_cell_ne readBound writeBound within)]

/-- Advancing the write position publishes the value stored in the open cell. -/
theorem contents_push (readBound : read < size) (writeBound : write < size)
    (notFull : advance size write ≠ read) :
    contents size data read (advance size write) =
      contents size data read write ++ [data write] := by
  unfold contents
  rw [occupied_push readBound writeBound notFull, List.range_succ, List.map_append]
  simp [write_eq readBound writeBound]

/-- Advancing the read position removes the oldest value. -/
theorem contents_pop (readBound : read < size) (writeBound : write < size)
    (notEmpty : write ≠ read) :
    contents size data read write =
      data read :: contents size data (advance size read) write := by
  have nextBound : advance size read < size := advance_lt read (by omega)
  have count : occupied size read write = occupied size (advance size read) write + 1 := by
    rw [occupied_eq readBound writeBound, occupied_eq nextBound writeBound, advance_eq readBound]
    by_cases last : read + 1 = size
    · simp only [last, if_true, Nat.zero_le]
      rw [if_neg (by omega)]
      omega
    · simp only [last, if_false]
      by_cases ordered : read ≤ write
      · rw [if_pos ordered, if_pos (by omega)]
        omega
      · rw [if_neg ordered, if_neg (by omega)]
        omega
  unfold contents
  rw [count, List.range_succ_eq_map, List.map_cons, List.map_map]
  congr 1
  · rw [Nat.add_zero, Nat.mod_eq_of_lt readBound]
  · apply List.map_congr_left
    intro i _
    simp only [Function.comp, advance]
    rw [Nat.mod_add_mod, show read + 1 + i = read + (i + 1) by omega]

@[simp] theorem length_contents :
    (contents size data read write).length = occupied size read write := by
  simp [contents]

/-- The ring is full when the write position cannot advance. -/
theorem occupied_full_iff (readBound : read < size) (writeBound : write < size) :
    advance size write = read ↔ occupied size read write = size - 1 := by
  constructor
  · intro full
    rw [occupied_eq readBound writeBound]
    rw [advance_eq writeBound] at full
    split at full <;> split <;> omega
  · intro total
    by_contra notFull
    have more := occupied_push readBound writeBound notFull
    have := occupied_lt readBound (advance_lt write (by omega : 0 < size))
    omega

/-- Equal positions are the empty ring. -/
theorem contents_eq_nil_iff (readBound : read < size) (writeBound : write < size) :
    contents size data read write = [] ↔ write = read := by
  constructor
  · intro empty
    by_contra notEmpty
    rw [contents_pop readBound writeBound notEmpty] at empty
    exact List.cons_ne_nil _ _ empty
  · rintro rfl
    exact contents_empty readBound

end Lupin.Ring
