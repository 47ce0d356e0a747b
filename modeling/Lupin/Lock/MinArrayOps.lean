import Mathlib.Data.Nat.Size
import Mathlib.Logic.Function.Basic
import Lupin.Lib.DoubleRefresh

/-!
# The min array

`min_array.h`: an array as a tree of minima, with a leaf for each process. `init_min_array` runs
alone. Afterwards every process calls `min_arr_update` for its own leaf, and every load, store
and compare and swap on a node is one step, with `BYTE_GRANULAR`.
-/

namespace Lupin.Lock.MinArray

open Lupin.DoubleRefresh

/-! ## Words -/

abbrev Word := BitVec 64

def counterMask : Word := ((1#64 <<< 47) - 1) <<< 16
def counterInf : Word := (1#64 <<< 47) - 1
def processIdMask : Word := 0xffff

/-- `default_process_state`. -/
def defaultProcessState (processId : BitVec 16) : Word := counterMask ||| processId.setWidth 64

/-- `compose_process_state`. -/
def composeProcessState (token : Word) (processId : BitVec 16) : Word :=
  token <<< 16 ||| processId.setWidth 64

/-- `get_counter`. -/
def getCounter (state : Word) : Word := (state &&& counterMask) >>> 16

/-- `get_process_id`. -/
def getProcessId (state : Word) : BitVec 16 := (state &&& processIdMask).setWidth 16

/-- The macro `MIN`. -/
def minState (left right : Word) : Word := if left < right then left else right

theorem minState_cases (left right : Word) :
    minState left right = left ∨ minState left right = right := by
  unfold minState
  split
  · exact Or.inl rfl
  · exact Or.inr rfl

variable {shift : Nat}

def processId (p : Fin (2 ^ shift)) : BitVec 16 := BitVec.ofNat 16 p

/-- `get_leaf_tree_pos`. -/
def leaf (p : Fin (2 ^ shift)) : Nat := 2 ^ shift + p

theorem leaf_lt (p : Fin (2 ^ shift)) : leaf p < 2 * 2 ^ shift := by
  have := p.2
  unfold leaf
  omega

/-! The two processes of the smallest array with more than one. -/

def firstOfTwo : Fin (2 ^ 1) := 0
def secondOfTwo : Fin (2 ^ 1) := 1

/-! ## `init_min_array` -/

/-- `refresh` without other processes: its swap finds the state it has loaded. -/
def refresh (nodes : Nat → Word) (pos : Nat) : Nat → Word :=
  Function.update nodes pos (minState (nodes (2 * pos)) (nodes (2 * pos + 1)))

/-- The loop of `min_arr_update` from this position. -/
def refreshUp (nodes : Nat → Word) (index : Nat) : (depth : Nat) → Nat → Word
  | 0 => nodes
  | depth + 1 =>
      if depth + 1 = 1 ∧ index = 1 then nodes
      else
        let parent := index / 2
        refreshUp (refresh (refresh nodes parent) parent) parent depth

/-- `min_arr_update` without other processes. -/
def minArrUpdate (shift : Nat) (nodes : Nat → Word) (process : Nat) (state : Word) : Nat → Word :=
  let index := 2 ^ shift + process
  refreshUp (Function.update nodes index state) index (shift + 1)

/-- `init_min_array`; its counter and the bound of the loop are of type `uint16_t`. -/
def initMinArray (shift : Nat) (nodes : Nat → Word) : Nat → Word :=
  (List.range (2 ^ shift % 2 ^ 16)).foldl
    (fun nodes i => minArrUpdate shift nodes i (defaultProcessState (BitVec.ofNat 16 i))) nodes

/-! ## `min_arr_update` -/

/-- The accesses of `refresh`: to the node, its children, and the compare and swap. With the
state of the node goes how often the node had been written by then. -/
inductive Refresh where
  | node
  | left (cur : Word) (version : Nat)
  | right (cur : Word) (version : Nat) (left : Word)
  | swap (cur : Word) (version : Nat) (left right : Word)
deriving DecidableEq

/-- The next atomic step of `min_arr_update`: the store to the leaf, and the refreshes, `again`
for the second of a node. -/
inductive Update where
  | setLeaf (state : Word)
  | refresh (pos : Nat) (again : Bool) (stage : Refresh)
deriving DecidableEq

/-- The nodes of the array; `version` counts the writes to each. -/
structure Nodes where
  nodes : Nat → Word
  version : Nat → Nat

def Nodes.write (array : Nodes) (pos : Nat) (state : Word) : Nodes where
  nodes := Function.update array.nodes pos state
  version := Function.update array.version pos (array.version pos + 1)

/-- The loop of `min_arr_update` is done with this node. -/
def ascend (pos : Nat) : Option Update :=
  if pos = 1 then none else some (.refresh (pos / 2) false .node)

/-- The loop of `min_arr_update` is done with this refresh of the node. -/
def afterRefresh (pos : Nat) (again : Bool) : Option Update :=
  if again then ascend pos else some (.refresh pos true .node)

/-- One access of `refresh`. -/
def Nodes.advanceRefresh (array : Nodes) (pos : Nat) (again : Bool) :
    Refresh → Nodes × Option Update
  | .node => (array, some (.refresh pos again (.left (array.nodes pos) (array.version pos))))
  | .left cur version =>
      (array, some (.refresh pos again (.right cur version (array.nodes (2 * pos)))))
  | .right cur version left =>
      (array, some (.refresh pos again (.swap cur version left (array.nodes (2 * pos + 1)))))
  | .swap cur _ left right =>
      (if array.nodes pos = cur then array.write pos (minState left right) else array,
        afterRefresh pos again)

/-- One atomic step of `min_arr_update` for the leaf at `index`, and the next one. -/
def Nodes.advance (array : Nodes) (index : Nat) : Update → Nodes × Option Update
  | .setLeaf state => (array.write index state, ascend index)
  | .refresh pos again stage => array.advanceRefresh pos again stage

/-- The step is no swap that succeeds on a node written since it was loaded. -/
def Nodes.unwritten (array : Nodes) : Update → Bool
  | .refresh pos _ (.swap cur version _ _) => array.nodes pos ≠ cur || array.version pos = version
  | _ => true

/-- The state and the version of the node a refresh has loaded. -/
def Refresh.loaded : Refresh → Option (Word × Nat)
  | .node => none
  | .left cur version | .right cur version _ | .swap cur version _ _ => some (cur, version)

def Refresh.version (stage : Refresh) : Option Nat := stage.loaded.map Prod.snd

/-- What a refresh has loaded of the children. -/
def Refresh.read (pos : Nat) (stage : Refresh) (c : Nat) : Option Word :=
  match stage with
  | .node | .left _ _ => none
  | .right _ _ first => if c = 2 * pos then some first else none
  | .swap _ _ first second =>
      if c = 2 * pos then some first else if c = 2 * pos + 1 then some second else none

/-! ## After `init_min_array` -/

section Init

variable {nodes : Nat → Word} {pos index depth : Nat}

/-- The node has the least state of its children. -/
def ExactAt (nodes : Nat → Word) (pos : Nat) : Prop :=
  nodes pos = minState (nodes (2 * pos)) (nodes (2 * pos + 1))

/-- A store changes this for the node and its parent only. -/
theorem ExactAt.update (exact : ExactAt nodes pos) {other : Nat} (state : Word)
    (different : pos ≠ other)
    (notParent : other / 2 ≠ pos) : ExactAt (Function.update nodes other state) pos := by
  rw [ExactAt, Function.update_of_ne different, Function.update_of_ne (by omega),
    Function.update_of_ne (by omega)]
  exact exact

theorem exactAt_refresh (positive : 0 < pos) : ExactAt (refresh nodes pos) pos := by
  rw [ExactAt, refresh, Function.update_self, Function.update_of_ne (by omega),
    Function.update_of_ne (by omega)]

/-- The loop leaves every node above the position exact, and every node that was. -/
theorem exactAt_refreshUp (low : 2 ^ depth ≤ index) (high : index < 2 ^ (depth + 1))
    (positive : 0 < pos) (holds : ExactAt nodes pos ∨ ∃ k, index / 2 ^ (k + 1) = pos) :
    ExactAt (refreshUp nodes index (depth + 1)) pos := by
  induction depth generalizing nodes index with
  | zero =>
      obtain rfl : index = 1 := by omega
      rcases holds with exact | ⟨k, above⟩
      · exact exact
      · rw [Nat.pow_succ', ← Nat.div_div_eq_div_mul] at above
        simp at above
        omega
  | succ depth inductionHypothesis =>
      rw [Nat.pow_succ] at low high
      have deep := Nat.two_pow_pos depth
      rw [refreshUp, if_neg (by omega)]
      refine inductionHypothesis (by omega) (by omega) ?_
      by_cases here : pos = index / 2
      · rw [here]
        exact .inl (exactAt_refresh (by omega))
      rcases holds with exact | ⟨k, above⟩
      · by_cases parent : index / 2 / 2 = pos
        · exact .inr ⟨0, by simpa using parent⟩
        · exact .inl ((exact.update _ here parent).update _ here parent)
      · cases k with
        | zero => exact absurd (by simpa using above.symm) here
        | succ k =>
            refine .inr ⟨k, ?_⟩
            rw [Nat.div_div_eq_div_mul, ← Nat.pow_succ']
            exact above

theorem exactAt_minArrUpdate {process : Nat} (isProcess : process < 2 ^ shift) (state : Word)
    (positive : 0 < pos) (inner : pos < 2 ^ shift)
    (holds : ExactAt nodes pos ∨ ∃ k, (2 ^ shift + process) / 2 ^ (k + 1) = pos) :
    ExactAt (minArrUpdate shift nodes process state) pos := by
  refine exactAt_refreshUp (by omega) (by rw [Nat.pow_succ]; omega) positive ?_
  rcases holds with exact | above
  · by_cases parent : (2 ^ shift + process) / 2 = pos
    · exact .inr ⟨0, by simpa using parent⟩
    · exact .inl (exact.update _ (by omega) parent)
  · exact .inr above

/-- The updates of the first processes leave the nodes above their leaves exact. -/
theorem exactAt_updates (count : Nat) (isCount : count ≤ 2 ^ shift) (states : Nat → Word)
    (positive : 0 < pos) (inner : pos < 2 ^ shift)
    (holds : ExactAt nodes pos ∨ ∃ i < count, ∃ k, (2 ^ shift + i) / 2 ^ (k + 1) = pos) :
    ExactAt ((List.range count).foldl (fun nodes i => minArrUpdate shift nodes i (states i)) nodes)
      pos := by
  induction count with
  | zero =>
      rcases holds with exact | ⟨i, isSmall, _⟩
      · exact exact
      · omega
  | succ count inductionHypothesis =>
      rw [List.range_succ, List.foldl_append, List.foldl_cons, List.foldl_nil]
      refine exactAt_minArrUpdate (by omega) _ positive inner ?_
      rcases holds with exact | ⟨i, isSmall, above⟩
      · exact .inl (inductionHypothesis (by omega) (.inl exact))
      · by_cases last : i = count
        · exact .inr (last ▸ above)
        · exact .inl (inductionHypothesis (by omega) (.inr ⟨i, by omega, above⟩))

/-- Every inner node is above the leaf of a process. -/
theorem exists_leaf_under (positive : 0 < pos) (inner : pos < 2 ^ shift) :
    ∃ i < 2 ^ shift, ∃ k, (2 ^ shift + i) / 2 ^ (k + 1) = pos := by
  have size : pos.size ≤ shift := Nat.size_le.mpr inner
  have sizePositive := Nat.size_pos.mpr positive
  have low : 2 ^ (pos.size - 1) ≤ pos := Nat.lt_size.mp (by omega)
  have high : pos < 2 ^ pos.size := Nat.lt_size_self pos
  have split : 2 ^ shift = 2 ^ (pos.size - 1) * 2 ^ (shift - pos.size + 1) := by
    rw [← Nat.pow_add]
    congr 1
    omega
  have whole : 2 ^ shift * 2 = 2 ^ pos.size * 2 ^ (shift - pos.size + 1) := by
    rw [← Nat.pow_succ, ← Nat.pow_add]
    congr 1
    omega
  have above : 2 ^ shift ≤ pos * 2 ^ (shift - pos.size + 1) :=
    split ▸ Nat.mul_le_mul_right _ low
  have below : pos * 2 ^ (shift - pos.size + 1) < 2 ^ shift * 2 :=
    whole ▸ Nat.mul_lt_mul_of_pos_right high (Nat.two_pow_pos _)
  refine ⟨pos * 2 ^ (shift - pos.size + 1) - 2 ^ shift, by omega, shift - pos.size, ?_⟩
  rw [Nat.add_sub_cancel' above]
  exact Nat.mul_div_cancel _ (Nat.two_pow_pos _)

/-- `init_min_array` makes every node exact, if its loop runs at all. -/
theorem exact_initMinArray {prior : Nat → Word}
    (initialised : shift < 16 ∨ Exact minState (2 ^ shift) prior) :
    Exact minState (2 ^ shift) (initMinArray shift prior) := by
  intro pos positive inner
  refine exactAt_updates _ (Nat.mod_le _ _) _ positive inner ?_
  rcases initialised with small | exact
  · rw [Nat.mod_eq_of_lt (Nat.pow_lt_pow_right (by decide) small)]
    exact .inr (exists_leaf_under positive inner)
  · exact .inl (exact pos positive inner)

/-- An update changes no leaf but its own. -/
theorem refreshUp_of_le {bound : Nat} (low : index < 2 * bound) (isLeaf : bound ≤ pos) :
    refreshUp nodes index depth pos = nodes pos := by
  induction depth generalizing nodes index with
  | zero => rfl
  | succ depth inductionHypothesis =>
      rw [refreshUp]
      split
      · rfl
      · rw [inductionHypothesis (by omega), refresh, refresh, Function.update_of_ne (by omega),
          Function.update_of_ne (by omega)]

theorem minArrUpdate_of_le {process : Nat} (isProcess : process < 2 ^ shift) (state : Word)
    (isLeaf : 2 ^ shift ≤ pos) : minArrUpdate shift nodes process state pos =
      if pos = 2 ^ shift + process then state else nodes pos := by
  rw [minArrUpdate, refreshUp_of_le (by omega) isLeaf, Function.update_apply]

/-- The updates of the first processes leave their states in the leaves. -/
theorem leaf_updates (count : Nat) (isCount : count ≤ 2 ^ shift) (states : Nat → Word) {i : Nat}
    (isProcess : i < count) :
    (List.range count).foldl (fun nodes i => minArrUpdate shift nodes i (states i)) nodes
      (2 ^ shift + i) = states i := by
  induction count with
  | zero => omega
  | succ count inductionHypothesis =>
      rw [List.range_succ, List.foldl_append, List.foldl_cons, List.foldl_nil,
        minArrUpdate_of_le (by omega) _ (by omega)]
      split
      · obtain rfl : i = count := by omega
        rfl
      · exact inductionHypothesis (by omega) (by omega)

/-- After `init_min_array` every node of the tree has the default state of a process. -/
theorem default_initMinArray (small : shift < 16) (prior : Nat → Word) (positive : 0 < pos)
    (bound : pos < 2 * 2 ^ shift) :
    ∃ p : Fin (2 ^ shift), initMinArray shift prior pos = defaultProcessState (processId p) := by
  have exact : Exact minState (2 ^ shift) (initMinArray shift prior) :=
    exact_initMinArray (.inl small)
  obtain ⟨c, low, high, same⟩ := exact.exists_leaf minState_cases positive bound
  have whole : 2 ^ shift % 2 ^ 16 = 2 ^ shift :=
    Nat.mod_eq_of_lt (Nat.pow_lt_pow_right (by decide) small)
  obtain ⟨i, rfl⟩ := Nat.exists_eq_add_of_le low
  refine ⟨⟨i, by omega⟩, same.trans ?_⟩
  rw [initMinArray, whole]
  exact leaf_updates _ (Nat.le_refl _) (fun i => defaultProcessState (BitVec.ofNat 16 i)) (by omega)

end Init

end Lupin.Lock.MinArray
