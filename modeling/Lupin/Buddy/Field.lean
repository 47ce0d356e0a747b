import Lupin.Buddy.Tree

/-!
# The unary field of a node

A field that holds `v` has its first `v` bits set and the others clear. Writing
clears the whole field and then sets the first bits, byte by byte, so a write
that stops on the way leaves a field whose status is not the one it was writing.
-/

namespace Lupin.Buddy

open Lupin.Memory Lupin.HeapIndex

/-- The field of node `i` holds `value`. -/
def Holds (t : BuddyTree) (m : Mem) (i value : Nat) : Prop :=
  ∀ j, j < height t.order i → bit m t.bits (fieldStart t.order i + j) = decide (j < value)

/-- Nothing but bits of the field of node `i` differs. -/
structure OnlyField (t : BuddyTree) (i : Nat) (m m' : Mem) : Prop where
  before : ∀ a, a < t.bits → m' a = m a
  bits : ∀ k, k < fieldStart t.order i ∨ fieldStart t.order i + height t.order i ≤ k →
    bit m' t.bits k = bit m t.bits k

/-! ## Reading -/

section Reading

variable {m m' : Mem} {bitset start width value : Nat}

theorem countBits_of_all_set (set : ∀ j, j < width → bit m bitset (start + j) = true) :
    countBits m bitset start width = width := by
  have all : (List.range width).countP (fun j => bit m bitset (start + j)) =
      (List.range width).length :=
    List.countP_eq_length.mpr fun j member => set j (List.mem_range.mp member)
  simpa [countBits] using all

theorem countBits_eq_zero_iff :
    countBits m bitset start width = 0 ↔ ∀ j, j < width → bit m bitset (start + j) = false := by
  simp [countBits, List.countP_eq_zero]

theorem countBits_of_all_clear (clear : ∀ j, j < width → bit m bitset (start + j) = false) :
    countBits m bitset start width = 0 := countBits_eq_zero_iff.mpr clear

theorem countBits_congr
    (same : ∀ j, j < width → bit m' bitset (start + j) = bit m bitset (start + j)) :
    countBits m' bitset start width = countBits m bitset start width := by
  refine List.countP_congr fun j member => ?_
  rw [same j (List.mem_range.mp member)]

/-- The status read from a field of at least one bit. -/
theorem readFromInternalPosition_eq (positive : 0 < width) :
    readFromInternalPosition m bitset ⟨width, start⟩ =
      if bit m bitset start then countBits m bitset start width else 0 := by
  unfold readFromInternalPosition
  rw [bitsetTest_eq, bitsetCountRange_eq m bitset (by omega : start ≤ start + width - 1),
    show start + width - 1 + 1 - start = width by omega]

/-- A unary field is read back, also when only part of its clear end is read. -/
theorem readFromInternalPosition_of_unary
    (first : bit m bitset start = decide (0 < value))
    (unary : ∀ j, j < width → bit m bitset (start + j) = decide (j < value))
    (bound : value ≤ width) :
    readFromInternalPosition m bitset ⟨width, start⟩ = value := by
  by_cases zero : value = 0
  · subst zero
    unfold readFromInternalPosition
    rw [bitsetTest_eq, first]
    simp
  · rw [readFromInternalPosition_eq (by omega), first, decide_eq_true (by omega : 0 < value)]
    obtain ⟨rest, rfl⟩ : ∃ rest, width = value + rest := ⟨width - value, by omega⟩
    rw [if_pos rfl, countBits_add,
      countBits_of_all_set fun j below => by rw [unary j (by omega), decide_eq_true below],
      countBits_of_all_clear fun j below => by
        rw [Nat.add_assoc, unary (value + j) (by omega), decide_eq_false (by omega)],
      Nat.add_zero]

end Reading

section Status

variable {t : BuddyTree} {m m' : Mem} {i j value : Nat}

theorem buddyTreeStatus_posOf (node : Node t.order i) :
    buddyTreeStatus t m (posOf i) =
      readFromInternalPosition m t.bits ⟨height t.order i, fieldStart t.order i⟩ := by
  unfold buddyTreeStatus
  rw [buddyTreeInternalPositionTree_posOf node]

theorem Holds.first (holds : Holds t m i value) (node : Node t.order i) :
    bit m t.bits (fieldStart t.order i) = decide (0 < value) := by
  simpa using holds 0 node.height_pos

theorem Holds.read_eq (holds : Holds t m i value) (node : Node t.order i)
    (bound : value ≤ height t.order i) :
    readFromInternalPosition m t.bits ⟨height t.order i, fieldStart t.order i⟩ = value :=
  readFromInternalPosition_of_unary (holds.first node) holds bound

/-- The status of a node is what its field holds. -/
theorem Holds.status_eq (holds : Holds t m i value) (node : Node t.order i)
    (bound : value ≤ height t.order i) : buddyTreeStatus t m (posOf i) = value := by
  rw [buddyTreeStatus_posOf node, holds.read_eq node bound]

/-- A change of one field leaves the other fields alone. -/
theorem OnlyField.bit_eq (only : OnlyField t i m m') (node : Node t.order i)
    (other : Node t.order j) (different : j ≠ i) {k : Nat} (inside : k < height t.order j) :
    bit m' t.bits (fieldStart t.order j + k) = bit m t.bits (fieldStart t.order j + k) := by
  apply only.bits
  rcases Nat.lt_or_gt_of_ne different with before | after
  · have apart := field_le_fieldStart other before (Nat.le_of_lt node.2)
    omega
  · have apart := field_le_fieldStart node after (Nat.le_of_lt other.2)
    omega

theorem OnlyField.holds_iff (only : OnlyField t i m m') (node : Node t.order i)
    (other : Node t.order j) (different : j ≠ i) :
    Holds t m' j value ↔ Holds t m j value := by
  constructor <;> intro holds k inside
  · rw [← only.bit_eq node other different inside]
    exact holds k inside
  · rw [only.bit_eq node other different inside]
    exact holds k inside

theorem OnlyField.status_eq (only : OnlyField t i m m') (node : Node t.order i)
    (other : Node t.order j) (different : j ≠ i) :
    buddyTreeStatus t m' (posOf j) = buddyTreeStatus t m (posOf j) := by
  have first := only.bit_eq node other different other.height_pos
  rw [buddyTreeStatus_posOf other, buddyTreeStatus_posOf other,
    readFromInternalPosition_eq other.height_pos, readFromInternalPosition_eq other.height_pos,
    countBits_congr fun k inside => only.bit_eq node other different inside]
  rw [Nat.add_zero] at first
  rw [first]

theorem OnlyField.refl (t : BuddyTree) (i : Nat) (m : Mem) : OnlyField t i m m :=
  ⟨fun _ _ => rfl, fun _ _ => rfl⟩

theorem OnlyField.trans {m'' : Mem} (first : OnlyField t i m m') (second : OnlyField t i m' m'') :
    OnlyField t i m m'' :=
  ⟨fun a before => (second.before a before).trans (first.before a before),
    fun k outside => (second.bits k outside).trans (first.bits k outside)⟩

end Status

/-! ## Writing -/

section Masks

variable {t : BuddyTree} {m : Mem} {i : Nat} {update : Byte → Byte → Byte} {value : Bool}
  {masks : List (Nat × Byte)}

/-- Stores whose masks select bits of a field change that field only. -/
theorem onlyField_maskStores (writes : Writes update value)
    (distinct : (masks.map Prod.fst).Nodup)
    (inField : ∀ k, Selected masks k →
      fieldStart t.order i ≤ k ∧ k < fieldStart t.order i + height t.order i) :
    OnlyField t i m (m.apply (maskStores update t.bits m masks)) := by
  constructor
  · intro a before
    exact apply_maskStores_of_not_mem (fun entry _ => by omega) m
  · intro k outside
    refine bit_of_not_selected writes distinct fun selected => ?_
    have := inField k selected
    omega

theorem Selected.of_take {k n : Nat} (selected : Selected (masks.take n) k) : Selected masks k := by
  obtain ⟨entry, member, rest⟩ := selected
  exact ⟨entry, List.mem_of_mem_take member, rest⟩

theorem nodup_take (distinct : (masks.map Prod.fst).Nodup) (n : Nat) :
    ((masks.take n).map Prod.fst).Nodup := by
  rw [List.map_take]
  exact distinct.sublist (List.take_sublist n _)

end Masks

section Range

variable {fromPos toPos : Nat}

theorem rangeMasks_ne_nil (fromPos toPos : Nat) : rangeMasks fromPos toPos ≠ [] := by
  unfold rangeMasks
  split <;> simp

end Range

section Write

variable {t : BuddyTree} {i value : Nat}

/-- The stores that clear the field of node `i`. -/
def clearStores (t : BuddyTree) (m : Mem) (i : Nat) : List Store :=
  maskStores (fun byte mask => byte &&& ~~~mask) t.bits m
    (rangeMasks (fieldStart t.order i) (fieldStart t.order i + height t.order i - 1))

/-- The stores that set the first `value` bits of the field of node `i`. -/
def setStores (t : BuddyTree) (m : Mem) (i value : Nat) : List Store :=
  if value = 0 then []
  else maskStores (fun byte mask => byte ||| mask) t.bits m
    (rangeMasks (fieldStart t.order i) (fieldStart t.order i + value - 1))

/-- The stores of a write to the field of node `i`. -/
def fieldWrite (t : BuddyTree) (m : Mem) (i value : Nat) : List Store :=
  clearStores t m i ++ setStores t (m.apply (clearStores t m i)) i value

theorem writeToInternalPosition_returns (t : BuddyTree) (m : Mem) (i value : Nat) :
    (writeToInternalPosition t.bits ⟨height t.order i, fieldStart t.order i⟩ value).Returns m
      (fieldWrite t m i value) () := by
  unfold writeToInternalPosition fieldWrite
  refine Shm.Returns.bind (bitsetClearRange_returns _ _ _ m) ?_
  unfold setStores
  by_cases zero : value = 0
  · simp only [zero, ne_eq, not_true_eq_false, if_false, if_true]
    exact Shm.Returns.pure _ ()
  · simp only [zero, ne_eq, not_false_eq_true, if_true, if_false]
    exact bitsetSetRange_returns _ _ _ _

theorem clearStores_ne_nil (t : BuddyTree) (m : Mem) (i : Nat) : clearStores t m i ≠ [] := by
  unfold clearStores maskStores
  simpa using rangeMasks_ne_nil _ _

/-- The clearing part of a write, as far as it got. -/
theorem onlyField_clearStores_take (node : Node t.order i) (m : Mem) (n : Nat) :
    OnlyField t i m (m.apply ((clearStores t m i).take n)) := by
  have positive := node.height_pos
  unfold clearStores
  rw [maskStores_take]
  refine onlyField_maskStores writes_clear (nodup_take (rangeMasks_nodup _ _) n) ?_
  intro k selected
  have inRange := (selected_rangeMasks (by omega) k).mp selected.of_take
  omega

theorem holds_clearStores (node : Node t.order i) (m : Mem) :
    Holds t (m.apply (clearStores t m i)) i 0 := by
  have positive := node.height_pos
  intro j inside
  rw [decide_eq_false (Nat.not_lt_zero j)]
  refine bit_of_selected writes_clear (rangeMasks_nodup _ _) ?_
  rw [selected_rangeMasks (by omega)]
  omega

/-- The setting part of a write, as far as it got. -/
theorem onlyField_setStores_take (node : Node t.order i) (bound : value ≤ height t.order i)
    (m : Mem) (n : Nat) : OnlyField t i m (m.apply ((setStores t m i value).take n)) := by
  have positive := node.height_pos
  unfold setStores
  split
  · simpa using OnlyField.refl t i m
  · rw [maskStores_take]
    refine onlyField_maskStores writes_set (nodup_take (rangeMasks_nodup _ _) n) ?_
    intro k selected
    have inRange := (selected_rangeMasks (by omega) k).mp selected.of_take
    omega

theorem holds_setStores {m : Mem} (cleared : Holds t m i 0) :
    Holds t (m.apply (setStores t m i value)) i value := by
  unfold setStores
  intro j inside
  by_cases zero : value = 0
  · simpa [zero] using cleared j inside
  · simp only [zero, if_false]
    by_cases low : j < value
    · rw [decide_eq_true low]
      refine bit_of_selected writes_set (rangeMasks_nodup _ _) ?_
      rw [selected_rangeMasks (by omega)]
      omega
    · rw [decide_eq_false low, bit_of_not_selected writes_set (rangeMasks_nodup _ _)]
      · simpa using cleared j inside
      · rw [selected_rangeMasks (by omega)]
        omega

/-! ### A write as a whole -/

theorem holds_fieldWrite (node : Node t.order i) (m : Mem) (value : Nat) :
    Holds t (m.apply (fieldWrite t m i value)) i value := by
  rw [fieldWrite, Mem.apply_append]
  exact holds_setStores (holds_clearStores node m)

theorem onlyField_fieldWrite_take (node : Node t.order i) (bound : value ≤ height t.order i)
    (m : Mem) (n : Nat) : OnlyField t i m (m.apply ((fieldWrite t m i value).take n)) := by
  have whole := onlyField_clearStores_take node m n
  unfold fieldWrite
  rw [List.take_append, Mem.apply_append]
  by_cases inClear : n ≤ (clearStores t m i).length
  · rw [Nat.sub_eq_zero_of_le inClear, List.take_zero, Mem.apply_nil]
    exact whole
  · rw [List.take_of_length_le (by omega)] at whole ⊢
    exact whole.trans (onlyField_setStores_take node bound _ _)

theorem onlyField_fieldWrite (node : Node t.order i) (bound : value ≤ height t.order i)
    (m : Mem) : OnlyField t i m (m.apply (fieldWrite t m i value)) := by
  have whole := onlyField_fieldWrite_take node bound m (fieldWrite t m i value).length
  rwa [List.take_length] at whole

end Write

end Lupin.Buddy
