import Mathlib.Algebra.BigOperators.Ring.List
import Lupin.Buddy.Allocator
import Lupin.Lib.LeafCount
import Lupin.Lib.TakenNodes

/-!
# Walking the tree

`buddy_tree_walk` steps through the tree from left to right, parents before children, and
leaves a subtree out where its caller has set `going_up`. `buddy_arena_free_size` sums up the
free positions on such a walk, and `buddy_walk` hands the allocated ones to a callback.
-/

namespace Lupin.Buddy

open Lupin.Memory Lupin.HeapIndex Lupin.LevelTree Lupin.Transition

/-- `struct buddy_tree_walk_state`. -/
structure BuddyTreeWalkState where
  startingPos : BuddyTreePos
  currentPos : BuddyTreePos
  goingUp : Bool
  walkDone : Bool

/-- `buddy_tree_right_adjacent`. -/
def buddyTreeRightAdjacent (pos : BuddyTreePos) : BuddyTreePos :=
  if (pos.index + 1) ^^^ pos.index > pos.index then invalidPos
  else { pos with index := pos.index + 1 }

/-- `buddy_tree_walk_state_root`. -/
def buddyTreeWalkStateRoot : BuddyTreeWalkState := ⟨buddyTreeRoot, buddyTreeRoot, false, false⟩

/-- One round of the loop of `buddy_tree_walk`. -/
def walkRound (t : BuddyTree) (state : BuddyTreeWalkState) : BuddyTreeWalkState :=
  if state.goingUp then
    if state.currentPos.index = state.startingPos.index then
      { state with walkDone := true, goingUp := false }
    else if state.currentPos.index % 2 = 1 then
      { state with currentPos := buddyTreeParent state.currentPos }
    else
      { state with currentPos := buddyTreeRightAdjacent state.currentPos, goingUp := false }
  else if buddyTreeValid t (buddyTreeLeftChild state.currentPos) then
    { state with currentPos := buddyTreeLeftChild state.currentPos }
  else { state with goingUp := true }

/-- The loop of `buddy_tree_walk`, `none` if it does not end in so many rounds. -/
def walkLoop (t : BuddyTree) : (rounds : Nat) → BuddyTreeWalkState → Option BuddyTreeWalkState
  | 0, _ => none
  | rounds + 1, state =>
      let state := walkRound t state
      if state.goingUp then walkLoop t rounds state else some state

/-- `buddy_tree_walk`: the state behind it; it returns whether `walk_done` is still clear. From a
position it goes up through those above it. -/
def buddyTreeWalk (t : BuddyTree) (state : BuddyTreeWalkState) : Option BuddyTreeWalkState :=
  walkLoop t (state.currentPos.depth + 1) state

variable {α : Type}

/-- What the body of a loop over a walk does at a position: it goes on below it, it sets
`going_up`, or the function returns. -/
inductive Visit (α : Type) where
  | below (result : α)
  | past (result : α)
  | leave (result : α)

/-- The end of a round: `buddy_tree_walk`, and the next round unless the walk is done. -/
def walkOn (t : BuddyTree) (next : BuddyTreeWalkState → α → Option α) (state : BuddyTreeWalkState)
    (result : α) : Option α :=
  match buddyTreeWalk t state with
  | none => none
  | some state => if state.walkDone then some result else next state result

/-- The loop of a function that walks the tree. A walk comes to every position once. -/
def visitLoop (t : BuddyTree) (visit : BuddyTreePos → α → Visit α) :
    (rounds : Nat) → BuddyTreeWalkState → α → Option α
  | 0, _, _ => none
  | rounds + 1, state, result =>
      match visit state.currentPos result with
      | .below result => walkOn t (visitLoop t visit rounds) state result
      | .past result => walkOn t (visitLoop t visit rounds) { state with goingUp := true } result
      | .leave result => some result

/-- The body of the loop of `buddy_arena_free_size`. -/
def addFreeSize (b : BuddyAlloc) (m : Mem) (pos : BuddyTreePos) (result : Nat) : Visit Nat :=
  let posStatus := buddyTreeStatus b.tree m pos
  if posStatus = b.tree.order - pos.depth + 1 then .past result
  else if posStatus = 0 then .past (result + sizeForDepth b pos.depth)
  else .below result

/-- `buddy_arena_free_size`, `none` if the walk does not end. -/
def buddyArenaFreeSize (b : BuddyAlloc) (m : Mem) : Option Nat :=
  visitLoop b.tree (addFreeSize b m) b.tree.upperPosBound buddyTreeWalkStateRoot 0

/-- `buddy_is_full`. -/
def buddyIsFull (b : BuddyAlloc) (m : Mem) : Bool :=
  buddyTreeStatus b.tree m buddyTreeRoot == b.tree.order

/-- The callback of `buddy_walk`: what it makes of its context, and the pointer it returns,
`none` for `NULL`. It leaves the tree as it is. -/
abbrev WalkCallback (κ : Type) := (ctx : κ) → (addr slotSize : Nat) → κ × Option Nat

/-- The body of the loop of `buddy_walk`, over the context and the pointer to return. -/
def processSlot {κ : Type} (b : BuddyAlloc) (m : Mem) (fp : WalkCallback κ) (pos : BuddyTreePos)
    (result : κ × Option Nat) : Visit (κ × Option Nat) :=
  let posStatus := buddyTreeStatus b.tree m pos
  let left := buddyTreeLeftChild pos
  if posStatus = 0 then .past result
  else if posStatus ≠ b.tree.order - pos.depth + 1 then .below result
  -- full because of its children
  else if buddyTreeValid b.tree left = true ∧ buddyTreeStatus b.tree m left ≠ 0 then .below result
  else
    let posSize := sizeForDepth b pos.depth
    let addr := addressForPosition b pos
    -- a virtual slot, so that all further ones are virtual too
    if addr - b.main + posSize > b.memorySize then .leave (result.1, none)
    else
      match fp result.1 addr posSize with
      | (ctx, none) => .below (ctx, none)
      | (ctx, some pointer) => .leave (ctx, some pointer)

/-- `buddy_walk`: the context behind it and what it returns. -/
def buddyWalk {κ : Type} (b : BuddyAlloc) (m : Mem) (fp : WalkCallback κ) (ctx : κ) :
    Option (κ × Option Nat) :=
  visitLoop b.tree (processSlot b m fp) b.tree.upperPosBound buddyTreeWalkStateRoot (ctx, none)

/-! ## The order of a walk -/

/-- What a walk makes of the subtree at `i` with so many levels; it goes on behind the subtree
with `ok`, and the function has returned with `error`. -/
def visited (visit : BuddyTreePos → α → Visit α) : (levels i : Nat) → α → Except α α
  | 0, _, result => .ok result
  | levels + 1, i, result =>
      match visit (posOf i) result with
      | .below result => visited visit levels (2 * i) result >>= visited visit levels (2 * i + 1)
      | .past result => .ok result
      | .leave result => .error result

/-- What a walk ends with that has made this of the whole tree. -/
def settled : Except α α → α
  | .ok result => result
  | .error result => result

section Order

variable {t : BuddyTree} {p n : Nat}

/-- A walk from the root that is at node `p`. -/
def walkAt (p : Nat) (goingUp : Bool) : BuddyTreeWalkState := ⟨posOf 1, posOf p, goingUp, false⟩

/-- Where a walk goes on that has finished with node `p`. -/
def behind (t : BuddyTree) (p : Nat) : Option BuddyTreeWalkState :=
  walkLoop t p.size (walkAt p true)

theorem walkLoop_root :
    walkLoop t (n + 1) (walkAt 1 true) = some ⟨posOf 1, posOf 1, false, true⟩ := rfl

theorem walkLoop_left (positive : 0 < p) :
    walkLoop t (n + 1) (walkAt (2 * p) true) = some (walkAt (2 * p + 1) false) := by
  have adjacent : buddyTreeRightAdjacent (posOf (2 * p)) = posOf (2 * p + 1) := by
    have flipped : (2 * p + 1) ^^^ (2 * p) = 1 := by
      have : 2 * p + 1 = 2 * p ^^^ 1 := (Nat.xor_one_of_even (by simp)).symm
      rw [this, Nat.xor_comm, ← Nat.xor_assoc, Nat.xor_self, Nat.zero_xor]
    have sizes : (2 * p).size = (2 * p + 1).size := by
      rw [size_child positive (by omega : 2 * p / 2 = p),
        size_child positive (by omega : (2 * p + 1) / 2 = p)]
    simp only [buddyTreeRightAdjacent, posOf, flipped, sizes]
    rw [if_neg (by omega)]
  have notRoot : ¬ (posOf (2 * p)).index = (posOf 1).index := by simp only [posOf]; omega
  have even : ¬ (posOf (2 * p)).index % 2 = 1 := by simp only [posOf]; omega
  simp only [walkLoop, walkRound, walkAt, if_true, if_neg notRoot, if_neg even, adjacent,
    Bool.false_eq_true, if_false]

theorem walkLoop_right (positive : 0 < p) :
    walkLoop t (n + 1) (walkAt (2 * p + 1) true) = walkLoop t n (walkAt p true) := by
  have notRoot : ¬ (posOf (2 * p + 1)).index = (posOf 1).index := by simp only [posOf]; omega
  have odd : (posOf (2 * p + 1)).index % 2 = 1 := by simp only [posOf]; omega
  have parent : buddyTreeParent (posOf (2 * p + 1)) = posOf p := by
    rw [posOf_parent (by omega), show (2 * p + 1) / 2 = p by omega]
  simp only [walkLoop, walkRound, walkAt, if_true, if_neg notRoot, if_pos odd, parent]

/-- Going up takes no more rounds than there are levels. -/
theorem walkLoop_behind (positive : 0 < p) (enough : p.size ≤ n) :
    walkLoop t n (walkAt p true) = behind t p := by
  induction p using Nat.strongRecOn generalizing n with
  | ind p inductionHypothesis =>
      have sizePositive := Nat.size_pos.mpr positive
      obtain ⟨n, rfl⟩ : ∃ k, n = k + 1 := ⟨n - 1, by omega⟩
      unfold behind
      obtain ⟨size, isSize⟩ : ∃ k, p.size = k + 1 := ⟨p.size - 1, by omega⟩
      rw [isSize]
      by_cases root : p = 1
      · subst root
        rw [walkLoop_root, walkLoop_root]
      · have half : 0 < p / 2 := by omega
        rcases Nat.mod_two_eq_zero_or_one p with even | odd
        · have split : p = 2 * (p / 2) := by omega
          rw [split, walkLoop_left half, walkLoop_left half]
        · have split : p = 2 * (p / 2) + 1 := by omega
          have sizes := size_parent (by omega : 1 < p)
          rw [split, walkLoop_right half, walkLoop_right half,
            inductionHypothesis (p / 2) (by omega) half (by omega),
            inductionHypothesis (p / 2) (by omega) half (by omega)]

theorem behind_right (positive : 0 < p) : behind t (2 * p + 1) = behind t p := by
  unfold behind
  rw [size_child positive (by omega : (2 * p + 1) / 2 = p), walkLoop_right positive]

theorem behind_left (positive : 0 < p) : behind t (2 * p) = some (walkAt (2 * p + 1) false) := by
  unfold behind
  rw [size_child positive (by omega : 2 * p / 2 = p), walkLoop_left positive]

theorem buddyTreeWalk_up (positive : 0 < p) : buddyTreeWalk t (walkAt p true) = behind t p :=
  walkLoop_behind positive (Nat.le_succ _)

theorem buddyTreeWalk_down (left : Node t.order (2 * p)) (positive : 0 < p) :
    buddyTreeWalk t (walkAt p false) = some (walkAt (2 * p) false) := by
  have down : walkRound t (walkAt p false) = walkAt (2 * p) false := by
    simp only [walkRound, walkAt, Bool.false_eq_true, if_false, posOf_leftChild positive]
    rw [if_pos (posOf_valid.mpr left)]
  unfold buddyTreeWalk
  rw [walkLoop, down]
  rfl

theorem buddyTreeWalk_leaf (leaf : ¬ Node t.order (2 * p)) (positive : 0 < p) :
    buddyTreeWalk t (walkAt p false) = behind t p := by
  have up : walkRound t (walkAt p false) = walkAt p true := by
    simp only [walkRound, walkAt, Bool.false_eq_true, if_false, posOf_leftChild positive]
    rw [if_neg fun valid => leaf (posOf_valid.mp valid)]
  unfold buddyTreeWalk
  rw [walkLoop, up]
  exact walkLoop_behind positive (Nat.le_refl _)

/-- How a walk goes on behind node `p`. -/
def resume (t : BuddyTree) (visit : BuddyTreePos → α → Visit α) (rounds p : Nat) (result : α) :
    Option α :=
  match behind t p with
  | none => none
  | some state => if state.walkDone then some result else visitLoop t visit rounds state result

/-- What a walk ends with that has made this of a subtree. -/
def finish (t : BuddyTree) (visit : BuddyTreePos → α → Visit α) (rounds p : Nat) :
    Except α α → Option α
  | .ok result => resume t visit rounds p result
  | .error result => some result

/-- A walk makes of a subtree what it makes of its root, of the left half and of the right half,
in this order, and then goes on behind it. -/
theorem visitLoop_subtree (visit : BuddyTreePos → α → Visit α) {levels : Nat}
    (node : Node t.order p) (isHeight : height t.order p = levels) (result : α) :
    ∃ used, used < 2 ^ levels ∧ ∀ rounds,
      visitLoop t visit (used + rounds) (walkAt p false) result =
        finish t visit rounds p (visited visit levels p result) := by
  induction levels generalizing p result with
  | zero => exact absurd isHeight (by have := node.height_pos; omega)
  | succ levels inductionHypothesis =>
      have positive := node.1
      have large : 0 < 2 ^ levels := by positivity
      have power : 2 ^ (levels + 1) = 2 ^ levels + 2 ^ levels := by ring
      have first : ∀ rounds, visitLoop t visit (1 + rounds) (walkAt p false) result =
          match visit (posOf p) result with
          | .below after => walkOn t (visitLoop t visit rounds) (walkAt p false) after
          | .past after => walkOn t (visitLoop t visit rounds) (walkAt p true) after
          | .leave after => some after := by
        intro rounds
        rw [Nat.add_comm, visitLoop]
        rfl
      cases made : visit (posOf p) result with
      | leave after =>
          refine ⟨1, by omega, fun rounds => ?_⟩
          rw [first, made]
          simp only [visited, made, finish]
      | past after =>
          refine ⟨1, by omega, fun rounds => ?_⟩
          rw [first, made]
          simp only [walkOn, buddyTreeWalk_up positive, visited, made, finish, resume]
      | below after =>
          by_cases inner : 1 < height t.order p
          · have left : Node t.order (2 * p) := node.below inner (by omega)
            have right : Node t.order (2 * p + 1) := node.below inner (by omega)
            have leftHeight := height_child t.order positive (by omega : 2 * p / 2 = p)
            have rightHeight := height_child t.order positive (by omega : (2 * p + 1) / 2 = p)
            obtain ⟨used, bound, goes⟩ := inductionHypothesis left (by omega) after
            have down : ∀ rounds, visitLoop t visit (1 + (used + rounds)) (walkAt p false) result =
                finish t visit rounds (2 * p) (visited visit levels (2 * p) after) := by
              intro rounds
              rw [first, made, ← goes]
              simp only [walkOn, buddyTreeWalk_down left positive]
              rfl
            cases leftMade : visited visit levels (2 * p) after with
            | error returned =>
                refine ⟨1 + used, by omega, fun rounds => ?_⟩
                rw [Nat.add_assoc, down, leftMade]
                simp only [visited, made, leftMade, bind, Except.bind, finish]
            | ok middle =>
                obtain ⟨used', bound', goes'⟩ := inductionHypothesis right (by omega) middle
                refine ⟨1 + used + used', by omega, fun rounds => ?_⟩
                rw [Nat.add_assoc, Nat.add_assoc, down, leftMade]
                simp only [finish, resume, behind_left positive]
                change visitLoop t visit (used' + rounds) (walkAt (2 * p + 1) false) middle = _
                rw [goes']
                simp only [visited, made, leftMade, bind, Except.bind]
                cases visited visit levels (2 * p + 1) middle with
                | error returned => rfl
                | ok result => simp only [finish, resume, behind_right positive]
          · have leaf : ¬ Node t.order (2 * p) := fun left => by
              have := left.height_pos
              have := height_child t.order positive (by omega : 2 * p / 2 = p)
              omega
            obtain rfl : levels = 0 := by omega
            refine ⟨1, by omega, fun rounds => ?_⟩
            rw [first, made]
            simp only [walkOn, buddyTreeWalk_leaf leaf positive, visited, made, bind, Except.bind,
              finish, resume]

/-- A walk from the root ends. -/
theorem visitLoop_root (visit : BuddyTreePos → α → Visit α) (order : 0 < t.order) (result : α) :
    visitLoop t visit t.upperPosBound buddyTreeWalkStateRoot result =
      some (settled (visited visit t.order 1 result)) := by
  have root : Node t.order 1 := ⟨by decide, Nat.one_lt_two_pow (by omega)⟩
  have isHeight : height t.order 1 = t.order := by simp [height]
  obtain ⟨used, bound, goes⟩ := visitLoop_subtree visit root isHeight result
  rw [BuddyTree.upperPosBound, two_pow_mod t.order_le,
    show 2 ^ t.order = used + (2 ^ t.order - used) by omega]
  refine (goes _).trans ?_
  cases visited visit t.order 1 result <;> rfl

end Order

/-- The status of a full position is the number of levels at and below it. -/
theorem levels_at {t : BuddyTree} {p : Nat} (node : Node t.order p) :
    t.order - (posOf p).depth + 1 = height t.order p := by
  have := node.size_le
  simp only [posOf, height]
  omega

/-! ## The free size -/

section FreeSize

variable {a : Arena} {m : Mem} {s : BlockSet a.tree.order} {p : Nat}

/-- What `buddy_arena_free_size` adds for a subtree is the size of its free leaves. -/
theorem visited_addFreeSize (represents : Represents a.tree m s.taken) {levels : Nat}
    (node : Node a.tree.order p) (isHeight : height a.tree.order p = levels) (result : Nat) :
    visited (addFreeSize a.toBuddyAlloc m) levels p result =
      .ok (result + vacantLeaves s.taken levels p * a.alignment) := by
  induction levels generalizing p result with
  | zero => exact absurd isHeight (by have := node.height_pos; omega)
  | succ levels inductionHypothesis =>
      have positive := node.1
      have status : buddyTreeStatus a.tree m (posOf p) = level s.taken (levels + 1) p := by
        rw [(represents p node).status_eq node (level_le _ _ _), isHeight]
      have width := (levels_at node).trans isHeight
      by_cases full : level s.taken (levels + 1) p = levels + 1
      · simp only [visited, addFreeSize, status, width, full, if_true,
          vacantLeaves_of_full full, Nat.zero_mul, Nat.add_zero]
      · by_cases free : level s.taken (levels + 1) p = 0
        · have size : sizeForDepth a.toBuddyAlloc (posOf p).depth = 2 ^ levels * a.alignment := by
            have := a.sizeForDepth_node node
            rw [isHeight] at this
            exact this
          have notFull : ¬ 0 = levels + 1 := by omega
          simp only [visited, addFreeSize, status, width, free, notFull, if_true, if_false, size,
            vacantLeaves_of_free free]
        · have inner : 0 < levels := by
            by_contra zero
            have := level_le s.taken (levels + 1) p
            omega
          have notTaken : s.taken p = false := by
            have := level_le s.taken (levels + 1) p
            exact not_taken_of_level_le
              (show level s.taken (levels + 1) p ≤ levels by omega) (by omega)
          have left : Node a.tree.order (2 * p) := node.below (by omega) (by omega)
          have right : Node a.tree.order (2 * p + 1) := node.below (by omega) (by omega)
          have leftHeight := height_child a.tree.order positive (by omega : 2 * p / 2 = p)
          have rightHeight := height_child a.tree.order positive (by omega : (2 * p + 1) / 2 = p)
          simp only [visited, addFreeSize, status, width, if_neg full, if_neg free]
          rw [inductionHypothesis left (by omega), vacantLeaves_succ notTaken inner, Nat.add_mul,
            ← Nat.add_assoc]
          exact inductionHypothesis right (by omega) _

/-- The free leaves and those of the live blocks are the blocks of the memory. -/
theorem AllocInvariant.leaves {virtualSlots blocks : BlockSet a.tree.order} {state : AllocState}
    (invariant : AllocInvariant a virtualSlots state blocks)
    (atEnd : CoversFrom virtualSlots (2 ^ (a.tree.order - 1) + a.blocks)) :
    vacantLeaves blocks.taken a.tree.order 1 +
      ((state.live.map (blockNode a.toBuddyAlloc)).map
        fun i => 2 ^ (height a.tree.order i - 1)).sum = a.blocks := by
  classical
  have rootHeight : height a.tree.order 1 = a.tree.order := by simp [height]
  have order := a.order_pos
  have room := a.blocks_le
  set nodes := state.live.map (blockNode a.toBuddyAlloc) with isNodes
  set covered := nodes.toFinset.biUnion (leavesOf a.tree.order) with isCovered
  have isTaken : ∀ i ∈ nodes, blocks.taken i = true := fun i member =>
    (invariant.accounted i).mpr (.inr member)
  have total : covered.card = (nodes.map fun i => 2 ^ (height a.tree.order i - 1)).sum := by
    rw [isCovered, Finset.card_biUnion, Finset.sum_congr rfl fun i _ => card_leavesOf _ i,
      List.sum_toFinset _ invariant.distinct]
    intro i member j member' different
    rw [Function.onFun, Finset.disjoint_left]
    intro leaf covers covers'
    exact different (blocks.eq_of_covers (isTaken i (List.mem_toFinset.mp member))
      (isTaken j (List.mem_toFinset.mp member')) (mem_leavesOf.mp covers) (mem_leavesOf.mp covers'))
  have inside : covered ⊆
      Finset.Ico (2 ^ (a.tree.order - 1)) (2 ^ (a.tree.order - 1) + a.blocks) := by
    intro leaf member
    obtain ⟨i, isNode, covers⟩ := Finset.mem_biUnion.mp member
    have live := List.mem_toFinset.mp isNode
    obtain ⟨block, isLive, rfl⟩ := List.mem_map.mp live
    obtain ⟨at_, notVirtual⟩ := invariant.live block isLive
    obtain ⟨low, high⟩ := at_.node.leaf_bounds (mem_leavesOf.mp covers)
    rw [Finset.mem_Ico]
    refine ⟨low, ?_⟩
    by_contra beyond
    obtain ⟨j, isVirtual, covering⟩ := (atEnd leaf low high).mpr (by omega)
    have same := blocks.eq_of_covers ((invariant.accounted j).mpr (.inl isVirtual))
      (isTaken _ live) covering (mem_leavesOf.mp covers)
    rw [same, notVirtual] at isVirtual
    exact Bool.false_ne_true isVirtual
  have uncovered : (leavesOf a.tree.order 1).filter (fun leaf => ¬ blocks.Covered leaf) =
      Finset.Ico (2 ^ (a.tree.order - 1)) (2 ^ (a.tree.order - 1) + a.blocks) \ covered := by
    ext leaf
    have double : 2 ^ a.tree.order = 2 ^ (a.tree.order - 1) + 2 ^ (a.tree.order - 1) := by
      rw [← Nat.two_mul, ← Nat.pow_succ', Nat.succ_eq_add_one, Nat.sub_add_cancel order]
    rw [Finset.mem_filter, Finset.mem_sdiff, Finset.mem_Ico, leavesOf, rootHeight, Finset.mem_Ico]
    constructor
    · rintro ⟨⟨low, high⟩, free⟩
      have within : ¬ 2 ^ (a.tree.order - 1) + a.blocks ≤ leaf := fun beyond => by
        obtain ⟨j, isVirtual, covering⟩ := (atEnd leaf (by omega) (by omega)).mpr beyond
        exact free ⟨j, (invariant.accounted j).mpr (.inl isVirtual), covering⟩
      refine ⟨by omega, fun member => ?_⟩
      obtain ⟨i, isNode, covers⟩ := Finset.mem_biUnion.mp member
      exact free ⟨i, isTaken i (List.mem_toFinset.mp isNode), mem_leavesOf.mp covers⟩
    · rintro ⟨⟨low, high⟩, free⟩
      refine ⟨by omega, ?_⟩
      rintro ⟨i, taken, covers⟩
      rcases (invariant.accounted i).mp taken with isVirtual | isNode
      · have := (atEnd leaf low (by omega)).mp ⟨i, isVirtual, covers⟩
        omega
      · exact free (Finset.mem_biUnion.mpr
          ⟨i, List.mem_toFinset.mpr isNode, mem_leavesOf.mpr covers⟩)
  have nothingAbove : ∀ i, Above i 1 → blocks.taken i = false := fun i above =>
    absurd above.le_half (by have := above.1; omega)
  rw [vacantLeaves_eq_card a.root_node rootHeight nothingAbove, uncovered,
    Finset.card_sdiff_of_subset inside, Nat.card_Ico, total]
  have := Finset.card_le_card inside
  rw [Nat.card_Ico, total] at this
  omega

/-- In every run of the split interface `buddy_arena_free_size` returns, the free size and the
blocks handed out make up the memory, and the arena is full exactly if the free size is 0. -/
theorem arena_free_size_accounts {base main memorySize alignment : Nat} {b : BuddyAlloc}
    (accepted : metashmemInitAlignment base main memorySize alignment = some b)
    (bound : memorySize ≤ 2 ^ 62) (prior : Mem) {state : AllocState}
    (reached : (allocMachine b prior).Reachable (fun _ _ _ => True) state) :
    ∃ free, buddyArenaFreeSize b state.mem = some free ∧
      free + (state.live.map fun block => blockSize b block.2).sum = b.memorySize ∧
      (buddyIsFull b state.mem = true ↔ free = 0) := by
  obtain ⟨a, rfl⟩ := exists_arena accepted bound
  obtain ⟨virtualSlots, atEnd, fresh⟩ := setUp_spec a prior
  obtain ⟨blocks, invariant⟩ := allocInvariant_of_reachable atEnd fresh reached
  have rootHeight : height a.tree.order 1 = a.tree.order := by simp [height]
  have represents := invariant.represents
  refine ⟨vacantLeaves blocks.taken a.tree.order 1 * a.alignment, ?_, ?_, ?_⟩
  · rw [buddyArenaFreeSize, visitLoop_root _ a.order_pos,
      visited_addFreeSize represents a.root_node rootHeight, Nat.zero_add, settled]
  · have sizes : (state.live.map fun block => blockSize a.toBuddyAlloc block.2) =
        ((state.live.map (blockNode a.toBuddyAlloc)).map
          fun i => 2 ^ (height a.tree.order i - 1)).map (· * a.alignment) := by
      rw [List.map_map, List.map_map]
      refine List.map_congr_left fun block member => ?_
      obtain ⟨at_, _⟩ := invariant.live block member
      rw [blockSize, ← at_.sizeClass, a.sizeForDepth_node at_.node]
      rfl
    rw [sizes, List.sum_map_mul_right, List.map_id', ← Nat.add_mul, invariant.leaves atEnd,
      a.memorySize_eq, a.alignment_eq]
  · rw [buddyIsFull, beq_iff_eq, posOf_root,
      (represents 1 a.root_node).status_eq a.root_node (level_le _ _ _), rootHeight,
      Nat.mul_eq_zero, or_iff_left (Nat.ne_of_gt a.alignment_pos)]
    exact ⟨vacantLeaves_of_full, full_of_vacantLeaves⟩

end FreeSize

theorem arena_free_size_accounts_threeBlocks :
    buddyArenaFreeSize threeBlocks
      ((allocMachine threeBlocks fun _ => 255).final [.malloc 5000]).mem = some 4096 := by
  obtain ⟨free, isFree, total, _⟩ := arena_free_size_accounts threeBlocks_accepted (by decide)
    (fun _ => 255) (Machine.reachable_final (fun _ _ _ => true) (fun _ _ _ _ => trivial)
      [.malloc 5000] (by decide +kernel))
  have live : (((allocMachine threeBlocks fun _ => 255).final [.malloc 5000]).live.map
      fun block => blockSize threeBlocks block.2).sum = 8192 := by decide +kernel
  have memory : threeBlocks.memorySize = 12288 := rfl
  rw [isFree, Option.some.injEq]
  omega

/-! ## The allocated slots -/

section Slots

variable {κ : Type}

/-- A callback called for one slot after the other until it returns a pointer. -/
def callEach (fp : WalkCallback κ) : List (Nat × Nat) → κ → κ × Option Nat
  | [], ctx => (ctx, none)
  | slot :: rest, ctx =>
      match fp ctx slot.1 slot.2 with
      | (ctx, none) => callEach fp rest ctx
      | (ctx, some pointer) => (ctx, some pointer)

/-- What `buddy_walk` makes of these allocated slots. -/
def processed (b : BuddyAlloc) (fp : WalkCallback κ) :
    List (Nat × Nat) → κ × Option Nat → Except (κ × Option Nat) (κ × Option Nat)
  | [], result => .ok result
  | slot :: rest, result =>
      if slot.1 - b.main + slot.2 > b.memorySize then .error (result.1, none)
      else
        match fp result.1 slot.1 slot.2 with
        | (ctx, none) => processed b fp rest (ctx, none)
        | (ctx, some pointer) => .error (ctx, some pointer)

theorem processed_append (b : BuddyAlloc) (fp : WalkCallback κ) (first second : List (Nat × Nat))
    (result : κ × Option Nat) :
    processed b fp (first ++ second) result =
      processed b fp first result >>= processed b fp second := by
  induction first generalizing result with
  | nil => rfl
  | cons slot rest inductionHypothesis =>
      simp only [List.cons_append, processed]
      split
      · rfl
      · split
        · exact inductionHypothesis _
        · rfl

/-- Of slots in the order of their addresses the callback gets those inside the memory. -/
theorem processed_eq_callEach {b : BuddyAlloc} (fp : WalkCallback κ) {slots : List (Nat × Nat)}
    (sorted : slots.Pairwise fun x y => x.1 + x.2 ≤ y.1) (low : ∀ slot ∈ slots, b.main ≤ slot.1)
    (ctx : κ) :
    settled (processed b fp slots (ctx, none)) =
      callEach fp (slots.filter fun slot => slot.1 - b.main + slot.2 ≤ b.memorySize) ctx := by
  induction slots generalizing ctx with
  | nil => rfl
  | cons slot rest inductionHypothesis =>
      obtain ⟨later, sorted⟩ := List.pairwise_cons.mp sorted
      have lowest := low slot (by simp)
      rw [processed]
      by_cases beyond : slot.1 - b.main + slot.2 > b.memorySize
      · have nothing : ((slot :: rest).filter
            fun slot => slot.1 - b.main + slot.2 ≤ b.memorySize) = [] := by
          rw [List.filter_eq_nil_iff]
          intro other member
          rw [decide_eq_true_iff]
          rcases List.mem_cons.mp member with rfl | member
          · omega
          · have := later other member
            omega
        rw [nothing, if_pos beyond]
        rfl
      · rw [if_neg beyond, List.filter_cons_of_pos (by rw [decide_eq_true_iff]; omega), callEach]
        cases made : fp ctx slot.1 slot.2 with
        | mk after pointer =>
            cases pointer with
            | none =>
                exact inductionHypothesis sorted
                  (fun other member => low other (by simp [member])) _
            | some pointer => rfl

variable {a : Arena} {m : Mem} {s : BlockSet a.tree.order} {p : Nat}

/-- The address and the size of a node's slot. -/
def slotOf (b : BuddyAlloc) (p : Nat) : Nat × Nat :=
  (addressForPosition b (posOf p), sizeForDepth b (posOf p).depth)

theorem processSlot_taken (represents : Represents a.tree m s.taken) (isTaken : s.taken p = true)
    (fp : WalkCallback κ) (result : κ × Option Nat) :
    processSlot a.toBuddyAlloc m fp (posOf p) result =
      match processed a.toBuddyAlloc fp [slotOf a.toBuddyAlloc p] result with
      | .ok result => .below result
      | .error result => .leave result := by
  have node := s.node p isTaken
  have positive := node.1
  have heightPositive := node.height_pos
  have status : buddyTreeStatus a.tree m (posOf p) = height a.tree.order p := by
    rw [(represents p node).status_eq node (level_le _ _ _), level_of_taken isTaken]
  have width := levels_at node
  have bottom : ¬ (buddyTreeValid a.tree (buddyTreeLeftChild (posOf p)) = true ∧
      buddyTreeStatus a.tree m (buddyTreeLeftChild (posOf p)) ≠ 0) := by
    rw [posOf_leftChild positive]
    rintro ⟨valid, busy⟩
    have left := posOf_valid.mp valid
    rw [(represents _ left).status_eq left (level_le _ _ _)] at busy
    exact busy (level_eq_zero_iff.mpr (BlockSet.free_below isTaken (by omega)))
  have notFree : ¬ height a.tree.order p = 0 := by omega
  simp only [processSlot, status, width, if_neg notFree, ne_eq, not_true_eq_false, if_false]
  rw [if_neg bottom, processed]
  by_cases beyond : addressForPosition a.toBuddyAlloc (posOf p) - a.main +
      sizeForDepth a.toBuddyAlloc (posOf p).depth > a.memorySize
  · have beyondSlot : (slotOf a.toBuddyAlloc p).1 - a.main + (slotOf a.toBuddyAlloc p).2 >
        a.memorySize := beyond
    rw [if_pos beyond, if_pos beyondSlot]
  · have insideSlot : ¬ (slotOf a.toBuddyAlloc p).1 - a.main + (slotOf a.toBuddyAlloc p).2 >
        a.memorySize := beyond
    rw [if_neg beyond, if_neg insideSlot]
    simp only [slotOf]
    rcases fp result.1 (addressForPosition a.toBuddyAlloc (posOf p))
      (sizeForDepth a.toBuddyAlloc (posOf p).depth) with ⟨ctx, _ | pointer⟩ <;> rfl

theorem processSlot_not_taken (represents : Represents a.tree m s.taken)
    (node : Node a.tree.order p) (notTaken : s.taken p = false) (fp : WalkCallback κ)
    (busy : ¬ level s.taken (height a.tree.order p) p = 0) (result : κ × Option Nat) :
    processSlot a.toBuddyAlloc m fp (posOf p) result = .below result := by
  have positive := node.1
  obtain ⟨levels, isHeight⟩ : ∃ levels, height a.tree.order p = levels + 1 :=
    ⟨height a.tree.order p - 1, by have := node.height_pos; omega⟩
  rw [isHeight] at busy
  have status : buddyTreeStatus a.tree m (posOf p) = level s.taken (levels + 1) p := by
    rw [(represents p node).status_eq node (level_le _ _ _), isHeight]
  have width := (levels_at node).trans isHeight
  by_cases full : level s.taken (levels + 1) p = levels + 1
  · -- full without being taken, so both halves are
    rw [level_succ notTaken] at full busy
    have leftBound := level_le s.taken levels (2 * p)
    have rightBound := level_le s.taken levels (2 * p + 1)
    have halves : 0 < levels ∧ level s.taken levels (2 * p) = levels := by
      unfold combine at full
      split at full <;> omega
    have leftHeight := height_child a.tree.order positive (by omega : 2 * p / 2 = p)
    have left : Node a.tree.order (2 * p) := node.below (by omega) (by omega)
    have inner : buddyTreeValid a.tree (buddyTreeLeftChild (posOf p)) = true ∧
        buddyTreeStatus a.tree m (buddyTreeLeftChild (posOf p)) ≠ 0 := by
      rw [posOf_leftChild positive]
      refine ⟨posOf_valid.mpr left, ?_⟩
      rw [(represents _ left).status_eq left (level_le _ _ _),
        show height a.tree.order (2 * p) = levels by omega]
      omega
    have notFree : ¬ levels + 1 = 0 := by omega
    simp only [processSlot, status, width, level_succ notTaken, full, if_neg notFree, ne_eq,
      not_true_eq_false, if_false]
    exact if_pos inner
  · simp only [processSlot, status, width, if_neg busy, ne_eq, full, not_false_eq_true, if_true]

/-- `buddy_walk` processes the slots of the taken nodes from left to right. -/
theorem visited_processSlot (represents : Represents a.tree m s.taken) (fp : WalkCallback κ)
    {levels : Nat} (node : Node a.tree.order p) (isHeight : height a.tree.order p = levels)
    (result : κ × Option Nat) :
    visited (processSlot a.toBuddyAlloc m fp) levels p result =
      processed a.toBuddyAlloc fp
        ((takenNodes s.taken levels p).map (slotOf a.toBuddyAlloc)) result := by
  induction levels generalizing p result with
  | zero => exact absurd isHeight (by have := node.height_pos; omega)
  | succ levels inductionHypothesis =>
      have positive := node.1
      have half : ∀ child, child / 2 = p → ∀ result,
          visited (processSlot a.toBuddyAlloc m fp) levels child result =
            processed a.toBuddyAlloc fp
              ((takenNodes s.taken levels child).map (slotOf a.toBuddyAlloc)) result := by
        intro child isChild result
        have childHeight := height_child a.tree.order positive isChild
        rcases Nat.eq_zero_or_pos levels with rfl | inner
        · rfl
        · exact inductionHypothesis (node.below (by omega) isChild) (by omega) result
      have below : ∀ result, (visited (processSlot a.toBuddyAlloc m fp) levels (2 * p) result >>=
          visited (processSlot a.toBuddyAlloc m fp) levels (2 * p + 1)) =
            processed a.toBuddyAlloc fp ((takenNodes s.taken levels (2 * p) ++
              takenNodes s.taken levels (2 * p + 1)).map (slotOf a.toBuddyAlloc)) result := by
        intro result
        rw [List.map_append, processed_append, half _ (by omega),
          funext (half (2 * p + 1) (by omega))]
      rw [takenNodes]
      cases isTaken : s.taken p with
      | true =>
          rw [if_pos rfl, List.map_append, processed_append, visited,
            processSlot_taken represents isTaken]
          simp only [List.map_cons, List.map_nil]
          cases processed a.toBuddyAlloc fp [slotOf a.toBuddyAlloc p] result with
          | error returned => rfl
          | ok after => exact below after
      | false =>
          rw [if_neg Bool.false_ne_true, List.nil_append]
          by_cases free : level s.taken (levels + 1) p = 0
          · have status : buddyTreeStatus a.tree m (posOf p) = 0 := by
              rw [(represents p node).status_eq node (level_le _ _ _), isHeight, free]
            have nothing := takenNodes_of_free (level_eq_zero_iff.mp free)
            rw [takenNodes, isTaken, if_neg Bool.false_ne_true, List.nil_append] at nothing
            rw [nothing]
            simp only [visited, processSlot, status, if_true]
            rfl
          · rw [visited, processSlot_not_taken represents node isTaken fp (by rwa [isHeight])]
            exact below result

/-- The order of nodes is that of the addresses of their slots. -/
theorem slotOf_before {q : Nat} (node : Node a.tree.order p) (node' : Node a.tree.order q)
    (before : Before a.tree.order p q) :
    (slotOf a.toBuddyAlloc p).1 + (slotOf a.toBuddyAlloc p).2 ≤ (slotOf a.toBuddyAlloc q).1 := by
  unfold Before at before
  have low : 2 ^ (a.tree.order - 1) ≤ p * 2 ^ (height a.tree.order p - 1) :=
    (node.leaf_bounds (covers_iff.mpr ⟨Nat.le_refl _, by
      rw [Nat.add_mul, Nat.one_mul]
      exact Nat.lt_add_of_pos_right (by positivity)⟩)).1
  have size : sizeForDepth a.toBuddyAlloc (posOf p).depth = _ := a.sizeForDepth_node node
  simp only [slotOf, a.addressForPosition_posOf node, a.addressForPosition_posOf node', size]
  rw [Nat.add_assoc, ← Nat.add_mul]
  refine Nat.add_le_add_left (Nat.mul_le_mul_right _ ?_) _
  rw [Nat.add_mul] at before
  omega

/-- In every run of the split interface `buddy_walk` returns, and its callback is called for the
live blocks, each once and in the order of their addresses, until it returns a pointer. -/
theorem walk_calls_for_live {base main memorySize alignment : Nat} {b : BuddyAlloc}
    (accepted : metashmemInitAlignment base main memorySize alignment = some b)
    (bound : memorySize ≤ 2 ^ 62) (prior : Mem) {state : AllocState}
    (reached : (allocMachine b prior).Reachable (fun _ _ _ => True) state) :
    ∃ slots : List (Nat × Nat),
      slots.Perm (state.live.map fun block => (block.1, blockSize b block.2)) ∧
      (slots.Pairwise fun x y => x.1 + x.2 ≤ y.1) ∧
      ∀ (κ : Type) (fp : WalkCallback κ) (ctx : κ),
        buddyWalk b state.mem fp ctx = some (callEach fp slots ctx) := by
  obtain ⟨a, rfl⟩ := exists_arena accepted bound
  obtain ⟨virtualSlots, atEnd, fresh⟩ := setUp_spec a prior
  obtain ⟨blocks, invariant⟩ := allocInvariant_of_reachable atEnd fresh reached
  have rootHeight : height a.tree.order 1 = a.tree.order := by simp [height]
  have isNode : ∀ i ∈ takenNodes blocks.taken a.tree.order 1, Node a.tree.order i :=
    fun i member => blocks.node i (mem_takenNodes_root.mp member)
  have ordered := takenNodes_pairwise (s := blocks) (by decide) rootHeight
  set nodes := takenNodes blocks.taken a.tree.order 1 with isNodes
  have sorted : (nodes.map (slotOf a.toBuddyAlloc)).Pairwise fun x y => x.1 + x.2 ≤ y.1 :=
    List.pairwise_map.mpr (ordered.imp_of_mem fun member member' before =>
      slotOf_before (isNode _ member) (isNode _ member') before)
  have low : ∀ slot ∈ nodes.map (slotOf a.toBuddyAlloc), a.main ≤ slot.1 := by
    intro slot member
    obtain ⟨i, _, rfl⟩ := List.mem_map.mp member
    exact Nat.le_add_right _ _
  refine ⟨(nodes.map (slotOf a.toBuddyAlloc)).filter
    fun slot => slot.1 - a.main + slot.2 ≤ a.memorySize, ?_, sorted.filter _, fun κ fp ctx => ?_⟩
  · have slots : (state.live.map fun block => (block.1, blockSize a.toBuddyAlloc block.2)) =
        (state.live.map (blockNode a.toBuddyAlloc)).map (slotOf a.toBuddyAlloc) := by
      rw [List.map_map]
      refine List.map_congr_left fun block member => ?_
      obtain ⟨at_, _⟩ := invariant.live block member
      rw [Function.comp_apply, slotOf, blockSize, ← at_.sizeClass, ← at_.address]
      rfl
    rw [slots, List.filter_map]
    refine List.Perm.map _ ((List.perm_ext_iff_of_nodup
      ((ordered.imp fun before => before.ne).filter _) invariant.distinct).mpr fun i => ?_)
    rw [List.mem_filter, mem_takenNodes_root, invariant.accounted, Function.comp_apply,
      decide_eq_true_iff]
    constructor
    · rintro ⟨isVirtual | isLive, inside⟩
      · -- the first byte of a virtual slot is behind the memory
        have node := virtualSlots.node i isVirtual
        have start : a.main ≤ addressForPosition a.toBuddyAlloc (posOf i) := Nat.le_add_right _ _
        have size : sizeForDepth a.toBuddyAlloc (posOf i).depth = _ := a.sizeForDepth_node node
        have positive : 0 < sizeForDepth a.toBuddyAlloc i.size := by
          rw [a.sizeForDepth_node node]
          exact Nat.mul_pos (by positivity) a.alignment_pos
        have covers := (a.covers_leafOf node).mpr (show
          addressForPosition a.toBuddyAlloc (posOf i) ≤
            a.main + (addressForPosition a.toBuddyAlloc (posOf i) - a.main) ∧ _ by omega)
        obtain ⟨first, last⟩ := node.leaf_bounds covers
        have behind := leafOf_virtual.mp ((atEnd _ first last).mp ⟨i, isVirtual, covers⟩)
        rw [← a.sizeForDepth_node node] at size
        simp only [slotOf, size] at inside
        omega
      · exact isLive
    · intro isLive
      obtain ⟨block, member, rfl⟩ := List.mem_map.mp isLive
      refine ⟨.inr isLive, ?_⟩
      obtain ⟨at_, _⟩ := invariant.live block member
      have inside := invariant.inside atEnd member
      have start := at_.aligned.1
      have size : sizeForDepth a.toBuddyAlloc (posOf (blockNode a.toBuddyAlloc block)).depth =
          blockSize a.toBuddyAlloc block.2 := congrArg _ at_.sizeClass
      simp only [slotOf, ← at_.address, size]
      omega
  · rw [buddyWalk, visitLoop_root _ a.order_pos,
      visited_processSlot invariant.represents fp a.root_node rootHeight]
    exact congrArg some (processed_eq_callEach fp sorted low ctx)

end Slots

/-- Two live blocks, the later one handed out first. -/
theorem walk_calls_for_live_threeBlocks :
    buddyWalk threeBlocks
      ((allocMachine threeBlocks fun _ => 255).final (firstCalls ++ [.malloc 100])).mem
      (fun ctx addr slotSize => (ctx ++ [(addr, slotSize)], none)) [] =
        some ([(4096, 4096), (12288, 4096)], none) := by
  obtain ⟨slots, isLive, ordered, walks⟩ := walk_calls_for_live threeBlocks_accepted (by decide)
    (fun _ => 255) (Machine.reachable_final (fun _ _ _ => true) (fun _ _ _ _ => trivial)
      (firstCalls ++ [.malloc 100]) (by decide +kernel))
  have live : (((allocMachine threeBlocks fun _ => 255).final
      (firstCalls ++ [.malloc 100])).live.map
        fun block => (block.1, blockSize threeBlocks block.2)) =
        [(4096, 4096), (12288, 4096)] := by decide +kernel
  rw [live] at isLive
  have sorted : slots = [(4096, 4096), (12288, 4096)] := by
    refine isLive.eq_of_pairwise (fun x y _ isSlot before after => ?_) ordered (by decide)
    rcases List.mem_pair.mp isSlot with rfl | rfl <;> dsimp only at before after <;> omega
  rw [walks, sorted]
  rfl

end Lupin.Buddy
