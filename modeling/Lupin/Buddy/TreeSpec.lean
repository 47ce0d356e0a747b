import Lupin.Buddy.Field
import Lupin.Lib.LevelTree

/-!
# The tree operations compute levels

The fields of a consistent tree hold the levels of the tree for a set of taken
nodes. Marking and releasing a node rewrite its field and then the fields above
it until one already has the value it should have; searching follows the levels
down. What the upward walk needs is stated for any tree it can mend, because a
crash leaves trees that are consistent only off the path.
-/

namespace Lupin.Buddy

open Lupin.Memory Lupin.HeapIndex Lupin.LevelTree

/-- Nothing outside the bits of the tree differs. -/
structure TreeFrame (t : BuddyTree) (m m' : Mem) : Prop where
  before : ∀ a, a < t.bits → m' a = m a
  after : ∀ k, sizeForOrder t.order 0 ≤ k → bit m' t.bits k = bit m t.bits k

/-- The fields of the tree hold the levels for these taken nodes. -/
def Represents (t : BuddyTree) (m : Mem) (taken : Nat → Bool) : Prop :=
  ∀ i, Node t.order i → Holds t m i (level taken (height t.order i) i)

section Frame

variable {t : BuddyTree} {m m' m'' : Mem} {i : Nat}

theorem TreeFrame.refl (t : BuddyTree) (m : Mem) : TreeFrame t m m :=
  ⟨fun _ _ => rfl, fun _ _ => rfl⟩

theorem TreeFrame.trans (first : TreeFrame t m m') (second : TreeFrame t m' m'') :
    TreeFrame t m m'' :=
  ⟨fun a before => (second.before a before).trans (first.before a before),
    fun k after => (second.after k after).trans (first.after k after)⟩

theorem OnlyField.frame (only : OnlyField t i m m') (node : Node t.order i) :
    TreeFrame t m m' := by
  refine ⟨only.before, fun k after => only.bits k (Or.inr ?_)⟩
  have inside := field_le_fieldStart node node.2 le_rfl
  rw [fieldStart_end] at inside
  omega

/-- Memories that differ in the tree only, and have the same fields, are the same. -/
theorem TreeFrame.ext {value : Nat → Nat} (frame : TreeFrame t m m')
    (holds : ∀ i, Node t.order i → Holds t m i (value i))
    (holds' : ∀ i, Node t.order i → Holds t m' i (value i)) : m' = m := by
  have bits : ∀ k, bit m' t.bits k = bit m t.bits k := by
    intro k
    by_cases inside : k < sizeForOrder t.order 0
    · obtain ⟨i, node, above, below⟩ := exists_field inside
      have here := holds i node (k - fieldStart t.order i) (by omega)
      have here' := holds' i node (k - fieldStart t.order i) (by omega)
      rw [Nat.add_sub_cancel' above] at here here'
      rw [here, here']
    · exact frame.after k (by omega)
  funext a
  by_cases before : a < t.bits
  · exact frame.before a before
  · apply BitVec.eq_of_getLsbD_eq
    intro n inByte
    have same := bits (8 * (a - t.bits) + n)
    unfold bit at same
    rwa [show (8 * (a - t.bits) + n) / 8 = a - t.bits by omega,
      show (8 * (a - t.bits) + n) % 8 = n by omega, Nat.add_sub_cancel' (by omega)] at same

end Frame

/-! ## The walk to the root -/

section Chain

variable {t : BuddyTree} {m : Mem} {c : Nat}

/-- The field `update_parent_chain` steps to is the sibling's. -/
theorem sibling_field (node : Node t.order c) (notRoot : c ≠ 1) :
    fieldStart t.order c + height t.order c - 2 * height t.order c * (c % 2) =
      fieldStart t.order (sibling c) := by
  obtain ⟨siblingNode, sameHeight⟩ := node.sibling_node notRoot
  unfold sibling at siblingNode sameHeight ⊢
  split at siblingNode
  · rename_i even
    simp only [even, if_true]
    rw [fieldStart_succ node]
    simp
  · rename_i odd
    have one : c % 2 = 1 := by omega
    simp only [odd, if_false] at sameHeight ⊢
    have next := fieldStart_succ siblingNode
    rw [Nat.sub_add_cancel node.1, sameHeight] at next
    rw [one]
    omega

/-- One round of the walk: it stops, or writes the parent and goes on from there. -/
theorem updateParentChain_round (rounds current : Nat) {other : Nat} (node : Node t.order c)
    (notRoot : c ≠ 1) (holds : Holds t m (sibling c) other)
    (bound : other ≤ height t.order (sibling c)) :
    updateParentChain t (rounds + 1) (posOf c) ⟨height t.order c, fieldStart t.order c⟩ current m =
      (if combine current other = buddyTreeStatus t m (posOf (c / 2)) then pure ()
       else do
         writeToInternalPosition t.bits ⟨height t.order (c / 2), fieldStart t.order (c / 2)⟩
           (combine current other)
         updateParentChain t rounds (posOf (c / 2))
           ⟨height t.order (c / 2), fieldStart t.order (c / 2)⟩ (combine current other) :
        Shm Unit) m := by
  obtain ⟨siblingNode, sameHeight⟩ := node.sibling_node notRoot
  have parent := node.parent notRoot
  have read := holds.read_eq siblingNode bound
  rw [sameHeight] at read
  have target : (if current ≠ 0 ∨ other ≠ 0 then
      (if current ≤ other then current else other) + 1 else 0) = combine current other := by
    unfold combine
    split_ifs <;> omega
  have index : (posOf c).index = c := rfl
  have sequenced : ∀ (f : Mem → Shm Unit), (Shm.get >>= f) m = f m m := fun f => rfl
  rw [updateParentChain, if_neg (by rw [index]; exact notRoot), sequenced]
  simp only [index, sibling_field node notRoot, read, target,
    posOf_parent (by have := node.1; omega : 1 < c), buddyTreeInternalPositionTree_posOf parent,
    buddyTreeStatus_posOf parent]

/-- What the walk from `c` needs to bring every field to its target: fields off the
path are there already, and where one on the path is, so are those above it. -/
structure Mendable (t : BuddyTree) (m : Mem) (target : Nat → Nat) (c : Nat) : Prop where
  bounded : ∀ b, Node t.order b → target b ≤ height t.order b
  consistent : ∀ b, Node t.order b → b ≠ 1 → (b = c ∨ Above b c) →
    target (b / 2) = combine (target b) (target (sibling b))
  settled : ∀ b, Node t.order b → ¬ Above b c → Holds t m b (target b)
  stops : ∀ a, Above a c → buddyTreeStatus t m (posOf a) = target a →
    Holds t m a (target a) ∧ (a ≠ 1 → buddyTreeStatus t m (posOf (a / 2)) = target (a / 2))

/-- A field on the path that has its target ends the walk: so have all above it. -/
theorem Mendable.above_done {target : Nat → Nat} (mendable : Mendable t m target c) {a n : Nat}
    (onPath : Above a c) (done : buddyTreeStatus t m (posOf a) = target a)
    (positive : 0 < a / 2 ^ n) :
    Above (a / 2 ^ n) c ∧ buddyTreeStatus t m (posOf (a / 2 ^ n)) = target (a / 2 ^ n) := by
  induction n with
  | zero => simpa using ⟨onPath, done⟩
  | succ n inductionHypothesis =>
      rw [Nat.pow_succ, ← Nat.div_div_eq_div_mul] at positive ⊢
      obtain ⟨above, here⟩ := inductionHypothesis (by omega)
      have notRoot : a / 2 ^ n ≠ 1 := by omega
      exact ⟨above.parent notRoot, (mendable.stops _ above here).2 notRoot⟩

theorem Mendable.holds_above {target : Nat → Nat} (mendable : Mendable t m target c) {a b : Nat}
    (onPath : Above a c) (done : buddyTreeStatus t m (posOf a) = target a)
    (above : b = a ∨ Above b a) : Holds t m b (target b) := by
  rcases above with rfl | ⟨positive, n, rfl⟩
  · exact (mendable.stops _ onPath done).1
  · obtain ⟨aboveC, here⟩ := mendable.above_done onPath done positive
    exact (mendable.stops _ aboveC here).1

/-- Writing the parent's target leaves a tree the walk can mend from there. -/
theorem Mendable.write_parent {target : Nat → Nat} (mendable : Mendable t m target c)
    (node : Node t.order c) (notRoot : c ≠ 1) {m' : Mem} (only : OnlyField t (c / 2) m m')
    (written : Holds t m' (c / 2) (target (c / 2))) : Mendable t m' target (c / 2) := by
  have parent := node.parent notRoot
  have notSelf : ∀ a, Above a (c / 2) → a ≠ c / 2 := by
    intro a above same
    have := above.le_half
    have := above.1
    omega
  refine ⟨mendable.bounded, ?_, ?_, ?_⟩
  · rintro b inTree bNotRoot (rfl | above)
    · exact mendable.consistent _ inTree bNotRoot (.inr (above_half (by have := node.1; omega)))
    · exact mendable.consistent b inTree bNotRoot (.inr above.of_half)
  · intro b inTree notAbove
    by_cases here : b = c / 2
    · rw [here]
      exact written
    · rw [only.holds_iff parent inTree here]
      exact mendable.settled b inTree fun above => notAbove (above.half here)
  · intro a above
    have inTree := parent.of_above above
    rw [only.status_eq parent inTree (notSelf a above)]
    intro done
    obtain ⟨holds, next⟩ := mendable.stops a above.of_half done
    refine ⟨(only.holds_iff parent inTree (notSelf a above)).mpr holds, fun aNotRoot => ?_⟩
    have higher := above.parent aNotRoot
    rw [only.status_eq parent (parent.of_above higher) (notSelf _ higher)]
    exact next aNotRoot

/-- The walk mends what it can: afterwards every field has its target. -/
theorem updateParentChain_mends {target : Nat → Nat} {rounds : Nat} (node : Node t.order c)
    (mendable : Mendable t m target c) (enough : c.size ≤ rounds) :
    ∃ stores, (updateParentChain t rounds (posOf c) ⟨height t.order c, fieldStart t.order c⟩
        (target c)).Returns m stores () ∧
      (∀ b, Node t.order b → Holds t (m.apply stores) b (target b)) ∧
      TreeFrame t m (m.apply stores) := by
  induction rounds generalizing c m with
  | zero =>
      have := node.size_pos
      omega
  | succ rounds inductionHypothesis =>
      by_cases root : c = 1
      · subst root
        refine ⟨[], rfl, fun b inTree => mendable.settled b inTree fun above => ?_,
          TreeFrame.refl t m⟩
        have := above.le_half
        have := above.1
        omega
      · obtain ⟨siblingNode, _⟩ := node.sibling_node root
        have parent := node.parent root
        have large : 1 < c := by
          have := node.1
          omega
        have siblingHolds := mendable.settled _ siblingNode (not_above_sibling large)
        have round := updateParentChain_round rounds (target c) node root
          siblingHolds (mendable.bounded _ siblingNode)
        rw [← mendable.consistent c node root (.inl rfl)] at round
        have onPath := above_half large
        by_cases done : target (c / 2) = buddyTreeStatus t m (posOf (c / 2))
        · -- the parent has its target already: so has every node above it
          rw [if_pos done] at round
          refine ⟨[], round, fun b inTree => ?_, TreeFrame.refl t m⟩
          by_cases above : Above b c
          · by_cases here : b = c / 2
            · exact mendable.holds_above onPath done.symm (.inl here)
            · exact mendable.holds_above onPath done.symm (.inr (above.half here))
          · exact mendable.settled b inTree above
        · rw [if_neg done] at round
          have bound := mendable.bounded _ parent
          have only := onlyField_fieldWrite parent bound m
          have next := mendable.write_parent node root only (holds_fieldWrite parent m _)
          obtain ⟨stores, returns, holds, frame⟩ := inductionHypothesis parent next (by
            have := size_parent large
            omega)
          refine ⟨fieldWrite t m (c / 2) (target (c / 2)) ++ stores,
            round.trans (Shm.Returns.bind (writeToInternalPosition_returns t m _ _) returns),
            ?_, ?_⟩
          · rw [Mem.apply_append]
            exact holds
          · rw [Mem.apply_append]
            exact (only.frame parent).trans frame

/-- The walk from a node ends, whatever the fields hold. -/
theorem updateParentChain_total {rounds : Nat} (node : Node t.order c) (enough : c.size ≤ rounds)
    (internal : InternalPosition) (current : Nat) :
    Shm.Total (updateParentChain t rounds (posOf c) internal current) := by
  induction rounds generalizing c internal current with
  | zero =>
      have := node.size_pos
      omega
  | succ rounds inductionHypothesis =>
      rw [updateParentChain]
      by_cases root : (posOf c).index = 1
      · rw [if_pos root]
        exact .pure ()
      · have large : 1 < c := by
          have := node.1
          simp only [posOf] at root
          omega
        have parent := node.parent root
        have shorter := size_parent large
        rw [if_neg root]
        simp only [posOf_parent large, buddyTreeInternalPositionTree_posOf parent]
        exact .get_bind fun m => .ite (.pure ()) (.bind
          (fun m => ⟨_, _, writeToInternalPosition_returns t m _ _⟩)
          fun _ => inductionHypothesis parent (by omega) _ _)

end Chain

/-! ## Marking and releasing -/

section Mark

variable {t : BuddyTree} {m m' : Mem} {taken : Nat → Bool} {p : Nat}

/-- After a change of one node whose field has been rewritten, the walk can mend the rest. -/
theorem mendable_of_change (taken' : Nat → Bool) (represents : Represents t m taken)
    (node : Node t.order p)
    (agree : ∀ j, j ≠ p → taken j = taken' j) (openPath : ∀ a, Above a p → taken a = false)
    (only : OnlyField t p m m') (written : Holds t m' p (level taken' (height t.order p) p)) :
    Mendable t m' (fun i => level taken' (height t.order i) i) p := by
  have notSelf : ∀ a, Above a p → a ≠ p := by
    intro a above same
    have := above.le_half
    have := above.1
    omega
  have openPath' : ∀ a, Above a p → taken' a = false := fun a above =>
    agree a (notSelf a above) ▸ openPath a above
  have onPath : ∀ a, Above a p → Holds t m' a (level taken (height t.order a) a) := fun a above =>
    (only.holds_iff node (node.of_above above) (notSelf a above)).mpr
      (represents a (node.of_above above))
  have status : ∀ a, Above a p →
      buddyTreeStatus t m' (posOf a) = level taken (height t.order a) a := fun a above =>
    (onPath a above).status_eq (node.of_above above) (level_le _ _ _)
  refine ⟨fun b _ => level_le _ _ _, ?_, ?_, ?_⟩
  · rintro b inTree notRoot position
    have parentAbove : Above (b / 2) p := by
      rcases position with rfl | above
      · exact above_half (by have := inTree.1; omega)
      · exact above.parent notRoot
    have large : 1 < b := by
      have := inTree.1
      omega
    simp only [(inTree.sibling_node notRoot).2, inTree.height_parent notRoot]
    exact level_half large (openPath' _ parentAbove)
  · intro b inTree notAbove
    by_cases here : b = p
    · subst here
      exact written
    · rw [only.holds_iff node inTree here, ← level_eq_of_not_above agree inTree.1 notAbove here]
      exact represents b inTree
  · intro a above done
    rw [status a above] at done
    refine ⟨done ▸ onPath a above, fun notRoot => ?_⟩
    have inTree := node.of_above above
    have higher := above.parent notRoot
    rw [status _ higher, inTree.height_parent notRoot]
    exact level_half_eq_of_eq agree above (by have := above.1; omega) (openPath _ higher) done

/-- Marking a node takes it. -/
theorem buddyTreeMark_spec (represents : Represents t m taken) (node : Node t.order p)
    (openPath : ∀ a, Above a p → taken a = false) :
    ∃ stores, (buddyTreeMark t (posOf p)).Returns m stores () ∧
      Represents t (m.apply stores) (Function.update taken p true) ∧
      TreeFrame t m (m.apply stores) := by
  have only := onlyField_fieldWrite node (Nat.le_refl (height t.order p)) m
  have full : level (Function.update taken p true) (height t.order p) p = height t.order p :=
    level_of_taken (by simp)
  have mendable := mendable_of_change (Function.update taken p true) represents node
    (fun j different => by simp [different]) openPath only
    (by rw [full]; exact holds_fieldWrite node m _)
  obtain ⟨stores, returns, holds, frame⟩ := updateParentChain_mends node mendable le_rfl
  refine ⟨fieldWrite t m p (height t.order p) ++ stores, ?_, ?_, ?_⟩
  · unfold buddyTreeMark
    simp only [buddyTreeInternalPositionTree_posOf node]
    simp only [full] at returns
    exact Shm.Returns.bind (writeToInternalPosition_returns t m _ _) returns
  · rw [Mem.apply_append]
    exact holds
  · rw [Mem.apply_append]
    exact (only.frame node).trans frame

/-- Releasing a taken node with nothing taken below it frees it. -/
theorem buddyTreeRelease_spec (represents : Represents t m taken) (node : Node t.order p)
    (isTaken : taken p = true) (openPath : ∀ a, Above a p → taken a = false)
    (alone : ∀ j, Above p j → taken j = false) :
    ∃ stores, (buddyTreeRelease t (posOf p)).Returns m stores () ∧
      Represents t (m.apply stores) (Function.update taken p false) ∧
      TreeFrame t m (m.apply stores) := by
  have only := onlyField_fieldWrite node (Nat.zero_le (height t.order p)) m
  have empty : level (Function.update taken p false) (height t.order p) p = 0 := by
    rw [level_eq_zero_iff]
    intro j n _ under
    by_cases here : j = p
    · simp [here]
    · rw [Function.update_of_ne here]
      cases n with
      | zero => exact absurd (by simpa using under) here
      | succ n => exact alone j ⟨node.1, n, under⟩
  have mendable := mendable_of_change (Function.update taken p false) represents node
    (fun j different => by simp [different]) openPath only
    (by rw [empty]; exact holds_fieldWrite node m _)
  obtain ⟨stores, returns, holds, frame⟩ := updateParentChain_mends node mendable le_rfl
  have full : readFromInternalPosition m t.bits ⟨height t.order p, fieldStart t.order p⟩ =
      height t.order p := by
    rw [(represents p node).read_eq node (level_le _ _ _), level_of_taken isTaken]
  refine ⟨fieldWrite t m p 0 ++ stores, ?_, ?_, ?_⟩
  · unfold buddyTreeRelease
    simp only [buddyTreeInternalPositionTree_posOf node]
    refine Shm.Returns.get_bind ?_
    simp only [full, ne_eq, not_true_eq_false, if_false]
    simp only [empty] at returns
    exact Shm.Returns.bind (writeToInternalPosition_returns t m _ _) returns
  · rw [Mem.apply_append]
    exact holds
  · rw [Mem.apply_append]
    exact (only.frame node).trans frame

theorem buddyTreeMark_total (node : Node t.order p) : Shm.Total (buddyTreeMark t (posOf p)) := by
  unfold buddyTreeMark
  simp only [buddyTreeInternalPositionTree_posOf node]
  exact .bind (fun m => ⟨_, _, writeToInternalPosition_returns t m _ _⟩)
    fun _ => updateParentChain_total node le_rfl _ _

end Mark

/-! ## Searching -/

section Search

variable {t : BuddyTree} {m : Mem} {taken : Nat → Bool} {i : Nat}

/-- A probed bit of a field tells whether its status reaches that far. -/
theorem Represents.compare_eq (represents : Represents t m taken) (node : Node t.order i)
    {k : Nat} (inside : k < height t.order i) :
    compareWithInternalPosition m t.bits ⟨height t.order i, fieldStart t.order i⟩ (k + 1) =
      decide (k < level taken (height t.order i) i) := by
  unfold compareWithInternalPosition
  rw [bitsetTest_eq]
  exact represents i node k inside

/-- One round of the search goes to a child that still has what is searched for. -/
theorem findFreeLoop_round (represents : Represents t m taken) (node : Node t.order i)
    {rounds : Nat} (deep : rounds + 1 < height t.order i)
    (low : level taken (height t.order i) i ≤ rounds + 1) :
    ∃ child, child / 2 = i ∧ level taken (height t.order child) child ≤ rounds ∧
      findFreeLoop t m (rounds + 1) (rounds + 1) (posOf i) =
        findFreeLoop t m rounds rounds (posOf child) := by
  have left : Node t.order (2 * i) := node.below (by omega) (by omega)
  have right : Node t.order (2 * i + 1) := node.below (by omega) (by omega)
  have leftHeight := height_child t.order node.1 (by omega : 2 * i / 2 = i)
  have rightHeight := height_child t.order node.1 (by omega : (2 * i + 1) / 2 = i)
  have rightPos : buddyTreeSibling (posOf (2 * i)) = posOf (2 * i + 1) := by
    have flipped : 2 * i ^^^ 1 = 2 * i + 1 := by
      rw [Nat.xor_one_of_even (by simp)]
    rw [← posOf_rightChild node.1]
    simp only [buddyTreeSibling, buddyTreeRightChild, posOf, flipped,
      size_child node.1 (by omega : 2 * i / 2 = i)]
  have rightField : fieldStart t.order (2 * i) + height t.order (2 * i) =
      fieldStart t.order (2 * i + 1) := (fieldStart_succ left).symm
  have sameHeight : height t.order (2 * i) = height t.order (2 * i + 1) := by
    rw [leftHeight, rightHeight]
  have below : rounds < height t.order (2 * i) := by omega
  have leftCompare := represents.compare_eq left below
  have rightCompare := represents.compare_eq right (sameHeight ▸ below)
  obtain ⟨lower, split⟩ : ∃ lower, height t.order i = lower + 1 := ⟨height t.order i - 1, by omega⟩
  have children := level_child_le (split ▸ low) (by omega : rounds < lower)
  have leftLower : height t.order (2 * i) = lower := by omega
  have rightLower : height t.order (2 * i + 1) = lower := by omega
  rw [findFreeLoop]
  simp only [Nat.add_sub_cancel, posOf_leftChild node.1, rightPos,
    buddyTreeInternalPositionTree_posOf left, rightField, leftCompare]
  rw [sameHeight, rightCompare, rightLower]
  by_cases leftBusy : rounds < level taken lower (2 * i)
  · refine ⟨2 * i + 1, by omega, ?_, ?_⟩
    · rw [rightLower]
      omega
    · simp only [leftBusy, decide_true, if_true]
  · by_cases rightBusy : rounds < level taken lower (2 * i + 1)
    · refine ⟨2 * i, by omega, ?_, ?_⟩
      · rw [leftLower]
        omega
      · simp only [leftBusy, rightBusy, decide_true, decide_false, if_true, Bool.false_eq_true,
          if_false]
    · -- both children will do, whichever the status read decides for
      simp only [leftBusy, rightBusy, decide_false, Bool.false_eq_true, if_false]
      split_ifs
      · exact ⟨2 * i, by omega, by rw [leftLower]; omega, rfl⟩
      · exact ⟨2 * i + 1, by omega, by rw [rightLower]; omega, rfl⟩
      · exact ⟨2 * i, by omega, by rw [leftLower]; omega, rfl⟩

/-- The search ends at a free node under nodes that are not taken. -/
theorem findFreeLoop_spec (represents : Represents t m taken) (node : Node t.order i)
    {rounds : Nat} (deep : rounds < height t.order i)
    (low : level taken (height t.order i) i ≤ rounds)
    (openPath : ∀ a, Above a i → taken a = false) :
    ∃ p, findFreeLoop t m rounds rounds (posOf i) = posOf p ∧ Node t.order p ∧
      p / 2 ^ rounds = i ∧ level taken (height t.order p) p = 0 ∧
      ∀ a, Above a p → taken a = false := by
  induction rounds generalizing i with
  | zero => exact ⟨i, rfl, node, by simp, Nat.le_zero.mp low, openPath⟩
  | succ rounds inductionHypothesis =>
      obtain ⟨child, isChild, childLow, round⟩ := findFreeLoop_round represents node deep low
      have childHeight := height_child t.order node.1 isChild
      have childOpen : ∀ a, Above a child → taken a = false := by
        intro a above
        by_cases here : a = child / 2
        · rw [here, isChild]
          exact not_taken_of_level_le low deep
        · rw [← isChild] at openPath
          exact openPath a (above.half here)
      obtain ⟨p, found, inTree, under, free, openUp⟩ :=
        inductionHypothesis (node.below (by omega) isChild) (by omega) childLow childOpen
      refine ⟨p, round.trans found, inTree, ?_, free, openUp⟩
      rw [Nat.pow_succ, ← Nat.div_div_eq_div_mul, under, isChild]

/-- `buddy_tree_find_free` finds a free node of the depth, if the root's level says so. -/
theorem buddyTreeFindFree_spec (represents : Represents t m taken) {targetDepth : Nat}
    (positive : 1 ≤ targetDepth) (bound : targetDepth ≤ t.order) :
    (buddyTreeFindFree t m targetDepth = invalidPos ∧ targetDepth - 1 < level taken t.order 1) ∨
    ∃ p, buddyTreeFindFree t m targetDepth = posOf p ∧ Node t.order p ∧ p.size = targetDepth ∧
      level taken (height t.order p) p = 0 ∧ ∀ a, Above a p → taken a = false := by
  have root : Node t.order 1 := ⟨by omega, Nat.one_lt_two_pow (by omega)⟩
  have status : buddyTreeStatus t m buddyTreeRoot = level taken t.order 1 := by
    rw [posOf_root, (represents 1 root).status_eq root (level_le _ _ _), height_root]
  unfold buddyTreeFindFree
  rw [status]
  by_cases busy : level taken t.order 1 > targetDepth - 1
  · exact .inl ⟨if_pos busy, busy⟩
  · refine .inr ?_
    obtain ⟨p, found, node, under, free, openPath⟩ :=
      findFreeLoop_spec represents root (by rw [height_root]; omega : targetDepth - 1 < _)
        (by rw [height_root]; omega) (fun a above => by
          have := above.le_half
          have := above.1
          omega)
    refine ⟨p, ?_, node, ?_, free, openPath⟩
    · simp only [if_neg busy]
      rw [posOf_root]
      exact found
    · have sizes := size_div_pow p (targetDepth - 1)
      rw [under, Nat.size_one] at sizes
      omega

/-- The root's level is too high only if no node of the depth is free. -/
theorem not_free_of_level_root {targetDepth p : Nat}
    (busy : targetDepth - 1 < level taken t.order 1)
    (node : Node t.order p) (atDepth : p.size = targetDepth)
    (openPath : ∀ a, Above a p → taken a = false) :
    ¬ Free taken (height t.order p) p := by
  intro free
  have sizes := node.size_le
  have sizePositive := node.size_pos
  have under : p / 2 ^ (targetDepth - 1) = 1 := by
    have size := size_div_pow p (targetDepth - 1)
    have one : (p / 2 ^ (targetDepth - 1)).size = 1 := by omega
    have small := Nat.lt_size_self (p / 2 ^ (targetDepth - 1))
    have large : 0 < p / 2 ^ (targetDepth - 1) := Nat.size_pos.mp (by omega)
    rw [one] at small
    omega
  have low := level_le_of_free under (by omega : targetDepth - 1 < t.order)
    (fun n positive within => openPath _ ⟨?_, n - 1, by rw [Nat.sub_add_cancel positive]⟩)
    (by
      have same : t.order - (targetDepth - 1) = height t.order p := by
        unfold height
        omega
      rw [same]
      exact free)
  · omega
  · -- an ancestor no higher than the root is not 0
    have wider : p / 2 ^ (targetDepth - 1) ≤ p / 2 ^ n :=
      Nat.div_le_div_left (Nat.pow_le_pow_right (by omega) within) (by positivity)
    omega

end Search

/-! ## Memories with the same tree -/

section Congr

variable {t : BuddyTree} {m m' : Mem}

theorem Represents.congr {taken : Nat → Bool} (represents : Represents t m taken)
    (same : ∀ a, t.bits ≤ a → m' a = m a) : Represents t m' taken := by
  intro i node j inside
  rw [bit, same _ (Nat.le_add_right _ _)]
  exact represents i node j inside

theorem readFromInternalPosition_congr (same : ∀ a, t.bits ≤ a → m' a = m a)
    (pos : InternalPosition) :
    readFromInternalPosition m' t.bits pos = readFromInternalPosition m t.bits pos := by
  rw [readFromInternalPosition, readFromInternalPosition, bitsetTest_congr same,
    bitsetCountRange_congr same]

theorem findFreeLoop_congr (same : ∀ a, t.bits ≤ a → m' a = m a) (rounds targetStatus : Nat)
    (pos : BuddyTreePos) :
    findFreeLoop t m' rounds targetStatus pos = findFreeLoop t m rounds targetStatus pos := by
  have reads := funext (readFromInternalPosition_congr (t := t) same)
  have tests : compareWithInternalPosition m' t.bits = compareWithInternalPosition m t.bits :=
    funext fun pos => funext fun value => bitsetTest_congr same _
  induction rounds generalizing targetStatus pos with
  | zero => rfl
  | succ rounds inductionHypothesis =>
      rw [findFreeLoop, findFreeLoop, tests, reads]
      exact inductionHypothesis _ _

theorem buddyTreeFindFree_congr (same : ∀ a, t.bits ≤ a → m' a = m a) (targetDepth : Nat) :
    buddyTreeFindFree t m' targetDepth = buddyTreeFindFree t m targetDepth := by
  rw [buddyTreeFindFree, buddyTreeFindFree, buddyTreeStatus, buddyTreeStatus,
    readFromInternalPosition_congr same, findFreeLoop_congr same]

end Congr

end Lupin.Buddy
