import Mathlib.Order.Bounds.Basic
import Lupin.Lib.Transition
import Lupin.Lock.MinArrayOps

/-!
# Updates of the min array

`min_array.h` by itself: any number of processes call `min_arr_update`, each for its own leaf
and with a registered and the default state in turn. Every load, store and compare and swap on
a node is one step, with `BYTE_GRANULAR`.

The swap compares the states in the node, so it also succeeds when the node has left the
loaded state and come back to it. `find_min_least_of_unwritten` states what holds when no swap
meets that.
-/

namespace Lupin.Lock.MinArrayUpdate

open Lupin.Transition Lupin.DoubleRefresh
open Lupin.Lock.MinArray (Word Nodes Refresh Update defaultProcessState composeProcessState minState
  minState_cases processId leaf leaf_lt ascend afterRefresh initMinArray exact_initMinArray
  firstOfTwo secondOfTwo)

/-! ## Steps -/

/-- Where a process is: in no call, or in `min_arr_update`. -/
inductive Pc where
  | idle
  | update (rest : Update)
deriving DecidableEq

/-- The array and its processes: which of them are registered, and the least token each has not
used up. -/
structure State (shift : Nat) extends Nodes where
  registered : Fin (2 ^ shift) → Bool
  unused : Fin (2 ^ shift) → Nat
  pc : Fin (2 ^ shift) → Pc

inductive Action (shift : Nat) where
  /-- Call `min_arr_update` with a token, and with the default state. -/
  | register (process : Fin (2 ^ shift)) (token : Word)
  | unregister (process : Fin (2 ^ shift))
  | advance (process : Fin (2 ^ shift))

variable {shift : Nat}

/-- `find_min`. -/
def findMin (σ : State shift) : Word := σ.nodes 1

def State.setPc (σ : State shift) (p : Fin (2 ^ shift)) (pc : Pc) : State shift :=
  { σ with pc := Function.update σ.pc p pc }

def Pc.proceed : Option Update → Pc
  | some rest => .update rest
  | none => .idle

/-- One atomic step of `min_arr_update`. -/
def advanceUpdate (σ : State shift) (p : Fin (2 ^ shift)) (rest : Update) : State shift :=
  let after := σ.toNodes.advance (leaf p) rest
  { σ.setPc p (.proceed after.2) with toNodes := after.1 }

def step (σ : State shift) : Action shift → Option (State shift)
  | .register p token =>
      if σ.pc p = .idle ∧ σ.registered p = false ∧ σ.unused p ≤ token.toNat then
        some { σ.setPc p (.update (.setLeaf (composeProcessState token (processId p)))) with
          registered := Function.update σ.registered p true
          unused := Function.update σ.unused p (token.toNat + 1) }
      else none
  | .unregister p =>
      if σ.pc p = .idle ∧ σ.registered p = true then
        some { σ.setPc p (.update (.setLeaf (defaultProcessState (processId p)))) with
          registered := Function.update σ.registered p false }
      else none
  | .advance p =>
      match σ.pc p with
      | .idle => none
      | .update rest => some (advanceUpdate σ p rest)

/-- The array after `init_min_array` on memory with these contents. -/
def minArray (shift : Nat) (prior : Nat → Word) : Machine (State shift) (Action shift) where
  initial :=
    { nodes := initMinArray shift prior
      version := fun _ => 0
      registered := fun _ => false
      unused := fun _ => 0
      pc := fun _ => .idle }
  step := step

/-- No swap succeeds on a node that was written since it was loaded. -/
def unwritten (σ : State shift) : Action shift → Bool
  | .advance p =>
      match σ.pc p with
      | .idle => true
      | .update rest => σ.toNodes.unwritten rest
  | _ => true

/-! ## Runs -/

def Pc.place : Pc → Option (Place Word)
  | .idle | .update (.setLeaf _) => none
  | .update (.refresh pos again stage) => some ⟨pos, again, stage.version, stage.read pos⟩

/-- The array as a tree that is refreshed. -/
def view (σ : State shift) (used : Nat → Word) : View (Fin (2 ^ shift)) Word :=
  ⟨σ.nodes, σ.version, used, fun p => (σ.pc p).place⟩

structure Invariant (σ : State shift) : Prop where
  tree : ∃ used, DoubleRefresh.Invariant minState (2 ^ shift) (view σ used)
  loaded : ∀ p pos again stage cur, σ.pc p = .update (.refresh pos again stage) →
    stage.loaded = some (cur, σ.version pos) → cur = σ.nodes pos

section Steps

variable {σ : State shift} {p : Fin (2 ^ shift)} {pos : Nat} {again : Bool}

theorem setPc_self (σ : State shift) (p : Fin (2 ^ shift)) (pc : Pc) : (σ.setPc p pc).pc p = pc :=
  Function.update_self ..

theorem setPc_other (σ : State shift) {p q : Fin (2 ^ shift)} (pc : Pc) (different : q ≠ p) :
    (σ.setPc p pc).pc q = σ.pc q :=
  Function.update_of_ne different ..

theorem view_update {next : State shift} {pc : Pc} (pcs : next.pc = Function.update σ.pc p pc)
    (used : Nat → Word) :
    view next used =
      (View.mk next.nodes next.version used fun q => (σ.pc q).place).move p pc.place := by
  have places : (fun q => (next.pc q).place) =
      Function.update (fun q => (σ.pc q).place) p pc.place := by
    funext q
    rw [pcs]
    by_cases same : q = p
    · rw [same, Function.update_self, Function.update_self]
    · rw [Function.update_of_ne same, Function.update_of_ne same]
  rw [view, places]
  rfl

theorem place_ascend (notRoot : pos ≠ 1) :
    (Pc.proceed (ascend pos)).place = some (.start (pos / 2) false) := by
  rw [ascend, if_neg notRoot]
  rfl

theorem place_afterRefresh (version : Option Nat) (read : Nat → Option Word) :
    (Pc.proceed (afterRefresh pos again)).place = Place.after ⟨pos, again, version, read⟩ := by
  cases again with
  | false => rfl
  | true =>
      by_cases root : pos = 1
      · rw [afterRefresh, if_pos rfl, ascend, if_pos root, Place.after, if_pos rfl, if_pos root]
        rfl
      · rw [afterRefresh, if_pos rfl, place_ascend root, Place.after, if_pos rfl, if_neg root]

/-- A load of a refresh. -/
theorem Invariant.load (inv : Invariant σ) {stage after : Refresh}
    (current : σ.pc p = .update (.refresh pos again stage))
    (loaded : after.loaded = stage.loaded ∨
      stage.loaded = none ∧ after.loaded = some (σ.nodes pos, σ.version pos))
    (read : ∀ c value, after.read pos c = some value → value = σ.nodes c ∨
      stage.version = after.version ∧ stage.read pos c = some value) :
    Invariant (σ.setPc p (.update (.refresh pos again after))) := by
  obtain ⟨used, tree⟩ := inv.tree
  refine ⟨⟨used, ?_⟩, ?_⟩
  · rw [view_update rfl]
    have place : (view σ used).place p = some ⟨pos, again, stage.version, stage.read pos⟩ :=
      congrArg Pc.place current
    have version : after.version = stage.version ∨
        stage.version = none ∧ after.version = some (σ.version pos) := by
      rcases loaded with before | ⟨nothing, now⟩
      · exact .inl (congrArg (Option.map Prod.snd) before)
      · exact .inr ⟨congrArg (Option.map Prod.snd) nothing, congrArg (Option.map Prod.snd) now⟩
    have load : Load (view σ used) ⟨pos, again, stage.version, stage.read pos⟩
        ⟨pos, again, after.version, after.read pos⟩ := ⟨rfl, rfl, version, read⟩
    exact tree.load load place
  · intro q pos' again' stage' cur at_ isLoaded
    by_cases same : q = p
    · rw [same, setPc_self] at at_
      obtain ⟨rfl, rfl, rfl⟩ := Update.refresh.inj (Pc.update.inj at_)
      rcases loaded with before | ⟨_, now⟩
      · exact inv.loaded p _ _ stage cur current (before ▸ isLoaded)
      · exact (Prod.mk.inj (Option.some.inj (isLoaded.symm.trans now))).1
    · rw [setPc_other σ _ same] at at_
      exact inv.loaded q _ _ stage' cur at_ isLoaded

/-- Where a process that has left its refresh is, the versions loaded are those before. -/
theorem Invariant.loaded_setPc (inv : Invariant σ) {next : State shift} {pc : Pc}
    (pcs : next.pc = Function.update σ.pc p pc)
    (idle : ∀ pos again stage, pc = .update (.refresh pos again stage) → stage = .node)
    (written : ∀ pos, next.nodes pos = σ.nodes pos ∧ next.version pos = σ.version pos ∨
      ∀ q again stage, σ.pc q = .update (.refresh pos again stage) →
        stage.version ≠ some (next.version pos)) :
    ∀ q pos again stage cur, next.pc q = .update (.refresh pos again stage) →
      stage.loaded = some (cur, next.version pos) → cur = next.nodes pos := by
  intro q pos again stage cur at_ isLoaded
  rw [pcs] at at_
  by_cases same : q = p
  · rw [same, Function.update_self] at at_
    rw [idle pos again stage at_] at isLoaded
    cases isLoaded
  · rw [Function.update_of_ne same] at at_
    rcases written pos with ⟨nodes, version⟩ | outdated
    · rw [nodes]
      exact inv.loaded q pos again stage cur at_ (version ▸ isLoaded)
    · exact absurd (congrArg (Option.map Prod.snd) isLoaded) (outdated q again stage at_)

theorem ascend_idle {pos' : Nat} {again' : Bool} {stage : Refresh}
    (at_ : Pc.proceed (ascend pos) = .update (.refresh pos' again' stage)) : stage = .node := by
  unfold ascend at at_
  split at at_
  · cases at_
  · exact (Update.refresh.inj (Pc.update.inj at_)).2.2.symm

theorem afterRefresh_idle {pos' : Nat} {again' : Bool} {stage : Refresh}
    (at_ : Pc.proceed (afterRefresh pos again) = .update (.refresh pos' again' stage)) :
    stage = .node := by
  cases again with
  | false => exact (Update.refresh.inj (Pc.update.inj at_)).2.2.symm
  | true => exact ascend_idle at_

/-- No refresh has loaded a version that is to come. -/
theorem Invariant.version_ne (inv : Invariant σ) {q : Fin (2 ^ shift)} {stage : Refresh}
    (at_ : σ.pc q = .update (.refresh pos again stage)) :
    stage.version ≠ some (σ.version pos + 1) := by
  intro isVersion
  obtain ⟨used, tree⟩ := inv.tree
  have place : (view σ used).place q = some ⟨pos, again, stage.version, stage.read pos⟩ :=
    congrArg Pc.place at_
  have older : σ.version pos + 1 ≤ σ.version pos := tree.notNewer q _ _ place isVersion
  omega

theorem Invariant.written (inv : Invariant σ) (pos' : Nat) (state : Word) (pos : Nat) :
    (σ.toNodes.write pos' state).nodes pos = σ.nodes pos ∧
        (σ.toNodes.write pos' state).version pos = σ.version pos ∨
      ∀ q again stage, σ.pc q = .update (.refresh pos again stage) →
        stage.version ≠ some ((σ.toNodes.write pos' state).version pos) := by
  by_cases same : pos = pos'
  · refine .inr fun q again stage at_ => ?_
    have newer : (σ.toNodes.write pos' state).version pos = σ.version pos + 1 := by
      rw [same]
      exact Function.update_self ..
    rw [newer]
    exact inv.version_ne at_
  · exact .inl ⟨Function.update_of_ne same .., Function.update_of_ne same ..⟩

/-- The compare and swap of a refresh, on a node that was not written since it was loaded. -/
theorem Invariant.swap (inv : Invariant σ) {cur : Word} {version : Nat} {left right : Word}
    (current : σ.pc p = .update (.refresh pos again (.swap cur version left right)))
    (fresh : σ.nodes pos ≠ cur ∨ σ.version pos = version) :
    Invariant (advanceUpdate σ p (.refresh pos again (.swap cur version left right))) := by
  obtain ⟨used, tree⟩ := inv.tree
  have place : (view σ used).place p = some
      ⟨pos, again, some version, Refresh.read pos (.swap cur version left right)⟩ :=
    congrArg Pc.place current
  have readLeft : Refresh.read pos (.swap cur version left right) (2 * pos) = some left :=
    if_pos rfl
  have readRight : Refresh.read pos (.swap cur version left right) (2 * pos + 1) = some right := by
    rw [Refresh.read, if_neg (by omega), if_pos rfl]
  unfold advanceUpdate Nodes.advance Nodes.advanceRefresh
  dsimp only
  split
  · rename_i unchanged
    have now : σ.version pos = version := fresh.resolve_left (not_not.mpr unchanged)
    have after := tree.swap place (congrArg some now.symm) readLeft readRight
    rw [← place_afterRefresh] at after
    refine ⟨⟨((view σ used).swap minState pos left right).used, ?_⟩,
      inv.loaded_setPc rfl (fun _ _ _ => afterRefresh_idle) (inv.written _ _)⟩
    rw [view_update rfl]
    exact after
  · rename_i changed
    have outdated : version ≠ σ.version pos := by
      rintro rfl
      exact changed (inv.loaded p pos again _ cur current rfl).symm
    have after := tree.swapFails place rfl outdated
    rw [← place_afterRefresh] at after
    refine ⟨⟨used, ?_⟩, inv.loaded_setPc rfl (fun _ _ _ => afterRefresh_idle)
      fun _ => .inl ⟨rfl, rfl⟩⟩
    rw [view_update rfl]
    exact after

theorem Invariant.refresh (inv : Invariant σ) {stage : Refresh}
    (current : σ.pc p = .update (.refresh pos again stage))
    (fresh : σ.toNodes.unwritten (.refresh pos again stage) = true) :
    Invariant (advanceUpdate σ p (.refresh pos again stage)) := by
  cases stage with
  | node => exact inv.load current (.inr ⟨rfl, rfl⟩) nofun
  | left cur version =>
      refine inv.load current (.inl rfl) fun c value isRead => .inl ?_
      rw [Refresh.read] at isRead
      split at isRead
      · rename_i isLeft
        rw [isLeft]
        exact (Option.some.inj isRead).symm
      · cases isRead
  | right cur version left =>
      refine inv.load current (.inl rfl) fun c value isRead => ?_
      rw [Refresh.read] at isRead
      split at isRead
      · rename_i isLeft
        exact .inr ⟨rfl, (if_pos isLeft).trans isRead⟩
      · split at isRead
        · rename_i isRight
          rw [isRight]
          exact .inl (Option.some.inj isRead).symm
        · cases isRead
  | swap cur version left right => exact inv.swap current (by simpa [Nodes.unwritten] using fresh)

/-- The store to the leaf. -/
theorem Invariant.setLeaf (inv : Invariant σ) (inner : 1 ≤ shift) {state : Word}
    (current : σ.pc p = .update (.setLeaf state)) :
    Invariant (advanceUpdate σ p (.setLeaf state)) := by
  obtain ⟨used, tree⟩ := inv.tree
  have outside : (view σ used).place p = none := congrArg Pc.place current
  have large : 2 ≤ 2 ^ shift := Nat.pow_le_pow_right (by decide : 0 < 2) inner
  have isLeaf : 2 ^ shift ≤ leaf p := Nat.le_add_right _ _
  have after := tree.store outside isLeaf (leaf_lt p) (by omega) state
  rw [← place_ascend (by omega)] at after
  refine ⟨⟨used, ?_⟩, inv.loaded_setPc rfl (fun _ _ _ => ascend_idle) (inv.written _ _)⟩
  unfold advanceUpdate Nodes.advance
  rw [view_update rfl]
  exact after

/-- The call of `min_arr_update`. -/
theorem Invariant.call (inv : Invariant σ) (idle : σ.pc p = .idle) {next : State shift}
    {state : Word} (pcs : next.pc = Function.update σ.pc p (.update (.setLeaf state)))
    (nodes : next.nodes = σ.nodes) (version : next.version = σ.version) : Invariant next := by
  obtain ⟨used, tree⟩ := inv.tree
  refine ⟨⟨used, ?_⟩, inv.loaded_setPc pcs nofun fun pos =>
    .inl ⟨congrFun nodes pos, congrFun version pos⟩⟩
  have places : (view next used).place = (view σ used).place := by
    funext q
    change (next.pc q).place = (σ.pc q).place
    rw [pcs]
    by_cases same : q = p
    · rw [same, Function.update_self, idle]
      rfl
    · rw [Function.update_of_ne same]
  have same : view next used = view σ used := by
    rw [view, view, View.mk.injEq]
    exact ⟨nodes, version, rfl, places⟩
  rw [same]
  exact tree

theorem Invariant.step (inv : Invariant σ) (inner : 1 ≤ shift) {action : Action shift}
    {next : State shift} (transition : step σ action = some next)
    (allowed : unwritten σ action = true) : Invariant next := by
  cases action with
  | register p token =>
      simp only [MinArrayUpdate.step] at transition
      split at transition
      · rename_i enabled
        obtain rfl := Option.some.inj transition
        exact inv.call enabled.1 rfl rfl rfl
      · cases transition
  | unregister p =>
      simp only [MinArrayUpdate.step] at transition
      split at transition
      · rename_i enabled
        obtain rfl := Option.some.inj transition
        exact inv.call enabled.1 rfl rfl rfl
      · cases transition
  | advance p =>
      rw [MinArrayUpdate.step] at transition
      cases current : σ.pc p with
      | idle =>
          rw [current] at transition
          cases transition
      | update rest =>
          rw [current] at transition
          obtain rfl := Option.some.inj transition
          have fresh : σ.toNodes.unwritten rest = true := by
            simpa only [unwritten, current] using allowed
          cases rest with
          | setLeaf state => exact inv.setLeaf inner current
          | refresh pos again stage => exact inv.refresh current fresh

end Steps

/-! ## The minimum -/

theorem minState_le_left (left right : Word) : minState left right ≤ left := by
  unfold minState
  split
  · exact BitVec.le_refl left
  · rename_i above
    exact BitVec.not_lt.mp above

theorem minState_le_right (left right : Word) : minState left right ≤ right := by
  unfold minState
  split
  · rename_i below
    exact BitVec.le_of_lt below
  · exact BitVec.le_refl right

/-- When no update is in progress `find_min` returns the least state of a leaf, if no swap has
succeeded on a node that was written since it was loaded. -/
theorem find_min_least_of_unwritten (prior : Nat → Word) (inner : 1 ≤ shift)
    (initialised : shift < 16 ∨ Exact minState (2 ^ shift) prior) {σ : State shift}
    (reached : (minArray shift prior).Reachable (fun σ action _ => unwritten σ action = true) σ)
    (quiescent : ∀ p, σ.pc p = .idle) :
    IsLeast (Set.range fun p : Fin (2 ^ shift) => σ.nodes (leaf p)) (findMin σ) := by
  have initially : Invariant (minArray shift prior).initial :=
    ⟨⟨_, (exact_initMinArray initialised).invariant rfl fun _ => rfl⟩, nofun⟩
  have inv : Invariant σ := Machine.Reachable.invariant initially
    (fun before transition allowed => before.step inner transition allowed) reached
  obtain ⟨used, tree⟩ := inv.tree
  have exact : Exact minState (2 ^ shift) σ.nodes :=
    tree.exact fun p => congrArg Pc.place (quiescent p)
  have nonempty := Nat.two_pow_pos shift
  constructor
  · obtain ⟨c, low, high, same⟩ := exact.exists_leaf minState_cases Nat.one_pos (by omega)
    refine ⟨⟨c - 2 ^ shift, by omega⟩, ?_⟩
    change σ.nodes (2 ^ shift + (c - 2 ^ shift)) = σ.nodes 1
    rw [Nat.add_sub_cancel' low]
    exact same.symm
  · rintro _ ⟨p, rfl⟩
    have root : leaf p / 2 ^ shift = 1 := by
      rw [leaf, Nat.add_div_left _ nonempty, Nat.div_eq_of_lt p.2]
    have least := exact.le_under (fun a b => a ≤ b) BitVec.le_refl BitVec.le_trans
      minState_le_left minState_le_right shift (c := leaf p)
      (by have := p.2; unfold leaf; omega) (by omega)
    rw [root] at least
    exact least

/-- The process runs this many of its steps. -/
def advances (p : Fin (2 ^ shift)) (count : Nat) : List (Action shift) :=
  List.replicate count (.advance p)

/-- A whole update of process 1 of two. -/
def registerOne (token : Word) : List (Action 1) :=
  .register secondOfTwo token :: advances secondOfTwo 9

def unregisterOne : List (Action 1) := .unregister secondOfTwo :: advances secondOfTwo 9

theorem find_min_least_of_unwritten_registerOne :
    findMin ((minArray 1 fun _ => 7).final (registerOne 2)) = composeProcessState 2 1 ∧
      IsLeast (Set.range fun p : Fin (2 ^ 1) =>
          ((minArray 1 fun _ => 7).final (registerOne 2)).nodes (leaf p))
        (findMin ((minArray 1 fun _ => 7).final (registerOne 2))) :=
  ⟨by decide +kernel, find_min_least_of_unwritten _ (by decide) (.inl (by decide))
    (Machine.reachable_final (fun σ action _ => unwritten σ action) (fun _ _ _ meets => meets)
      (registerOne 2) (by decide +kernel)) (by decide +kernel)⟩

/-- Process 0 leaves; before its second refresh of the root swaps, process 1 leaves, has
registered with token 3, and leaves again. -/
def rootReturns : List (Action 1) :=
  .register firstOfTwo 1 :: advances firstOfTwo 9 ++ registerOne 2 ++
    .unregister firstOfTwo :: advances firstOfTwo 5 ++ unregisterOne ++
    .register secondOfTwo 3 :: advances secondOfTwo 1 ++ advances firstOfTwo 3 ++
    advances secondOfTwo 8 ++ unregisterOne ++ advances firstOfTwo 1

/-- The late swap brings back a token that no leaf has. -/
theorem late_swap_restores_token :
    ∃ σ : State 1, (minArray 1 fun _ => 0).Reachable (fun _ _ _ => True) σ ∧
      (∀ p, σ.pc p = .idle) ∧ findMin σ = composeProcessState 3 1 ∧
      ¬ IsLeast (Set.range fun p : Fin (2 ^ 1) => σ.nodes (leaf p)) (findMin σ) := by
  refine ⟨(minArray 1 fun _ => 0).final rootReturns,
    Machine.reachable_final (fun _ _ _ => true) (fun _ _ _ _ => trivial) rootReturns
      (by decide +kernel), by decide +kernel, by decide +kernel, ?_⟩
  rintro ⟨⟨p, isLeaf⟩, _⟩
  revert p
  decide +kernel

end Lupin.Lock.MinArrayUpdate
