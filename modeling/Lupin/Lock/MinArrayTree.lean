import Mathlib.Order.Nat
import Lupin.Lock.MinArray

/-!
# Tokens in the tree of minima

A process that leaves writes the default state into its leaf and refreshes every node above
twice. Unless a swap succeeds on a node that was written since it was loaded, its token is
then gone from the whole path: what the first refresh of a node cannot rule out is a swap
under way with the token, and each of these has loaded the node before; the second refresh
finds the node written by itself or by a swap without the token.
-/

namespace Lupin.Lock.MinArray

variable {shift : Nat}

/-- The word is a token of `p`. -/
def Holds (p : Fin (2 ^ shift)) (state : Word) : Prop :=
  getCounter state ≠ counterInf ∧ getProcessId state = processId p

/-- The node is the leaf of `p` or above it. -/
def OnPath (p : Fin (2 ^ shift)) (pos : Nat) : Prop := 0 < pos ∧ ∃ k, leaf p / 2 ^ k = pos

/-- The node is one of the array's. -/
def InTree (shift pos : Nat) : Prop := 0 < pos ∧ pos < 2 * 2 ^ shift

section Words

variable {p q : Fin (2 ^ shift)} {left right : Word}

theorem getProcessId_compose (token : Word) (id : BitVec 16) :
    getProcessId (composeProcessState token id) = id := by
  have ones : processIdMask.setWidth 16 = BitVec.allOnes 16 := by decide
  have zeros : (token <<< 16).setWidth 16 = 0#16 := by
    ext i inside
    simp
  have same : (id.setWidth 64).setWidth 16 = id := by
    ext i inside
    simp
  rw [getProcessId, BitVec.setWidth_and, composeProcessState, BitVec.setWidth_or, ones, zeros,
    same, BitVec.zero_or, BitVec.and_allOnes]

theorem getProcessId_default (id : BitVec 16) : getProcessId (defaultProcessState id) = id := by
  have ones : processIdMask.setWidth 16 = BitVec.allOnes 16 := by decide
  have zeros : counterMask.setWidth 16 = 0#16 := by decide
  have same : (id.setWidth 64).setWidth 16 = id := by
    ext i inside
    simp
  rw [getProcessId, BitVec.setWidth_and, defaultProcessState, BitVec.setWidth_or, ones, zeros,
    same, BitVec.zero_or, BitVec.and_allOnes]

theorem getCounter_default (id : BitVec 16) :
    getCounter (defaultProcessState id) = counterInf := by
  have apart : id.setWidth 64 &&& counterMask = 0 := by
    apply BitVec.eq_of_getLsbD_eq
    intro i bounded
    rw [BitVec.getLsbD_and, BitVec.getLsbD_setWidth]
    by_cases low : i < 16
    · have clear : ∀ j < 16, counterMask.getLsbD j = false := by decide
      simp [clear i low]
    · simp [BitVec.getLsbD_of_ge id i (by omega)]
  rw [getCounter, defaultProcessState, BitVec.and_comm, BitVec.and_or_distrib_left,
    BitVec.and_comm counterMask (id.setWidth 64), apart]
  decide

theorem holds_minState (holds : Holds p (minState left right)) : Holds p left ∨ Holds p right := by
  rcases minState_cases left right with same | same
  · exact Or.inl (same ▸ holds)
  · exact Or.inr (same ▸ holds)

theorem processId_injective (small : shift ≤ 16) (same : processId p = processId q) : p = q := by
  have bound : 2 ^ shift ≤ 2 ^ 16 := Nat.pow_le_pow_right (by decide) small
  have values := congrArg BitVec.toNat same
  simp only [processId, BitVec.toNat_ofNat] at values
  apply Fin.ext
  omega

end Words

/-! ## Paths -/

section Path

variable {p : Fin (2 ^ shift)} {a b : Nat}

theorem onPath_leaf (p : Fin (2 ^ shift)) : OnPath p (leaf p) :=
  ⟨Nat.add_pos_left (Nat.two_pow_pos _) _, 0, by simp⟩

theorem OnPath.parent (onPath : OnPath p b) (child : b / 2 = a) (positive : 0 < a) :
    OnPath p a := by
  obtain ⟨_, k, rfl⟩ := onPath
  refine ⟨positive, k + 1, ?_⟩
  rw [← child, Nat.div_div_eq_div_mul, ← Nat.pow_succ]

/-- The nodes of a path below the parent of one of them are not above that one. -/
theorem OnPath.le_of_half_lt (first : OnPath p a) (second : OnPath p b) (below : b / 2 < a) :
    b ≤ a := by
  obtain ⟨_, j, rfl⟩ := first
  obtain ⟨_, k, rfl⟩ := second
  rcases Nat.lt_or_ge k j with higher | lower
  · have above : leaf p / 2 ^ j ≤ leaf p / 2 ^ k / 2 := by
      rw [Nat.div_div_eq_div_mul, ← Nat.pow_succ]
      exact Nat.div_le_div_left (Nat.pow_le_pow_right (by decide) higher) (Nat.two_pow_pos _)
    omega
  · exact Nat.div_le_div_left (Nat.pow_le_pow_right (by decide) lower) (Nat.two_pow_pos _)

theorem OnPath.le_leaf (onPath : OnPath p a) : a ≤ leaf p := by
  obtain ⟨_, k, rfl⟩ := onPath
  exact Nat.div_le_self _ _

theorem OnPath.inTree (onPath : OnPath p a) : InTree shift a :=
  ⟨onPath.1, lt_of_le_of_lt onPath.le_leaf (leaf_lt p)⟩

theorem inTree_root : InTree shift 1 := ⟨Nat.one_pos, by have := Nat.two_pow_pos shift; omega⟩

end Path

/-! ## Refreshes under way -/

/-- What a refresh has of the children. -/
def Refresh.carried : Refresh → Option Word
  | .node | .left _ _ => none
  | .right _ _ first => some first
  | .swap _ _ first second => some (minState first second)

/-- The update takes a token out of the tree. -/
def Context.unregisters : Context → Bool
  | .register _ => false
  | _ => true

/-- A refresh of this node that loaded it at this version carries a token of `p`. -/
def Carried (σ : State shift) (pos : Nat) (p : Fin (2 ^ shift)) (version : Nat) : Prop :=
  ∃ q context again stage cur state, σ.pc q = .update context (.refresh pos again stage) ∧
    stage.loaded = some (cur, version) ∧ stage.carried = some state ∧ Holds p state

/-- The node has no token of `p`, and no swap that can still succeed brings one. -/
structure Clean (σ : State shift) (p : Fin (2 ^ shift)) (pos : Nat) : Prop where
  node : ¬ Holds p (σ.nodes pos)
  outdated : ∀ version, Carried σ pos p version → version < σ.version pos

/-- The token of the process is out and the node has been refreshed twice since. -/
def Pc.cleanFrom : Pc → Nat → Prop
  | .update context (.refresh at_ _ _), pos => context.unregisters = true ∧ at_ < pos
  | .update context (.setLeaf _), _ => context.unregisters = false
  | .promoteRead context, _ | .promoteMin context _, _ | .promoteCas context _ _, _
  | .check context, _ => context.unregisters = true
  | .spinRead _, _ | .finalRead _, _ | .critical, _ => False
  | _, _ => True

/-- The same, or this is the node that is being refreshed. -/
def Pc.removesFrom : Pc → Nat → Prop
  | .update context (.refresh at_ _ _), pos => context.unregisters = true ∧ at_ ≤ pos
  | pc, pos => pc.cleanFrom pos

/-- The same, where the node being refreshed is so for the second time. -/
def Pc.finishesFrom : Pc → Nat → Prop
  | .update context (.refresh at_ again _), pos =>
      context.unregisters = true ∧ (at_ < pos ∨ at_ = pos ∧ again = true)
  | pc, pos => pc.cleanFrom pos

/-- The state on its way to the leaf of `p` has the id of `p`, and no token where `p` takes its
token out. -/
def Pc.LeafWord (p : Fin (2 ^ shift)) (pc : Pc) : Prop :=
  ∀ context state, pc = .update context (.setLeaf state) → getProcessId state = processId p ∧
    (context.unregisters = true → getCounter state = counterInf)

/-- How far the refreshes of the current node have come. -/
def Cleaning (σ : State shift) (p : Fin (2 ^ shift)) : Prop :=
  ∀ context pos again stage, σ.pc p = .update context (.refresh pos again stage) →
    context.unregisters = true →
    if again then
      (∀ version, Carried σ pos p version → version < σ.version pos) ∧
        ∀ cur version, stage.loaded = some (cur, version) →
          σ.version pos = version ∨ ¬ Holds p (σ.nodes pos)
    else
      ∀ cur version, stage.loaded = some (cur, version) →
        ∀ version', Carried σ pos p version' → version' ≤ version

/-- Where a process has taken its token out, it is out. -/
structure Settled (σ : State shift) (p : Fin (2 ^ shift)) : Prop where
  clean : ∀ pos, OnPath p pos → (σ.pc p).cleanFrom pos → Clean σ p pos
  cleaning : Cleaning σ p

structure TreeInvariant (σ : State shift) : Prop where
  named : ∀ pos, InTree shift pos → ∃ p : Fin (2 ^ shift), getProcessId (σ.nodes pos) = processId p
  carriedNamed : ∀ q context pos again stage state,
    σ.pc q = .update context (.refresh pos again stage) → stage.carried = some state →
      ∃ p : Fin (2 ^ shift), getProcessId state = processId p
  onPath : ∀ (p : Fin (2 ^ shift)) pos, InTree shift pos → Holds p (σ.nodes pos) → OnPath p pos
  carriedOnPath : ∀ p pos version, Carried σ pos p version → OnPath p pos
  ownPath : ∀ p context pos again stage, σ.pc p = .update context (.refresh pos again stage) →
    OnPath p pos ∧ pos < 2 ^ shift
  loaded : ∀ q context pos again stage cur version,
    σ.pc q = .update context (.refresh pos again stage) → stage.loaded = some (cur, version) →
      version ≤ σ.version pos ∧ (version = σ.version pos → cur = σ.nodes pos)
  leafWord : ∀ p, (σ.pc p).LeafWord p
  settled : ∀ p, Settled σ p

theorem Pc.refresh_inj {context context' : Context} {pos pos' : Nat} {again again' : Bool}
    {stage stage' : Refresh}
    (same : Pc.update context (.refresh pos again stage) =
      .update context' (.refresh pos' again' stage')) :
    context = context' ∧ pos = pos' ∧ again = again' ∧ stage = stage' :=
  ⟨(Pc.update.inj same).1, Update.refresh.inj (Pc.update.inj same).2⟩

section Settled

variable {σ next : State shift} {p q : Fin (2 ^ shift)}

theorem Pc.removesFrom_of_cleanFrom {pc : Pc} {pos : Nat} (clean : pc.cleanFrom pos) :
    pc.removesFrom pos := by
  unfold removesFrom
  split
  · exact ⟨clean.1, clean.2.le⟩
  · exact clean

theorem Pc.finishesFrom_of_cleanFrom {pc : Pc} {pos : Nat} (clean : pc.cleanFrom pos) :
    pc.finishesFrom pos := by
  unfold finishesFrom
  split
  · exact ⟨clean.1, Or.inl clean.2⟩
  · exact clean

/-- What is below a node where the token is being removed has no token. -/
theorem Pc.cleanFrom_of_removesFrom {pc : Pc} {pos below : Nat} (removes : pc.removesFrom pos)
    (deeper : pos < below) : pc.cleanFrom below := by
  cases pc with
  | update context rest =>
      cases rest with
      | refresh => exact ⟨removes.1, lt_of_le_of_lt removes.2 deeper⟩
      | setLeaf => exact removes
  | _ => exact removes

/-- Another process is left as it was: where it removes its token, swaps under way have become
no more, and a node is as before or written without the token. -/
theorem Settled.keep (settled : Settled σ q) (pc : next.pc q = σ.pc q)
    (carried : ∀ pos version, (σ.pc q).removesFrom pos → Carried next pos q version →
      Carried σ pos q version)
    (nodes : ∀ pos, OnPath q pos → (σ.pc q).finishesFrom pos →
      next.nodes pos = σ.nodes pos ∧ next.version pos = σ.version pos ∨
        ¬ Holds q (next.nodes pos) ∧ σ.version pos < next.version pos)
    (ownPath : ∀ context pos again stage, σ.pc q = .update context (.refresh pos again stage) →
      OnPath q pos ∧ pos < 2 ^ shift) : Settled next q := by
  refine ⟨?_, ?_⟩
  · intro pos onPath clean
    rw [pc] at clean
    have removes := Pc.removesFrom_of_cleanFrom clean
    obtain ⟨node, outdated⟩ := settled.clean pos onPath clean
    rcases nodes pos onPath (Pc.finishesFrom_of_cleanFrom clean) with
      ⟨sameNode, sameVersion⟩ | ⟨without, newer⟩
    · exact ⟨sameNode ▸ node, fun version late =>
        sameVersion ▸ outdated version (carried pos version removes late)⟩
    · exact ⟨without, fun version late =>
        lt_trans (outdated version (carried pos version removes late)) newer⟩
  · intro context pos again stage at_ unregisters
    rw [pc] at at_
    have removes : (σ.pc q).removesFrom pos := by
      rw [at_]
      exact ⟨unregisters, le_rfl⟩
    have before := settled.cleaning context pos again stage at_ unregisters
    cases again with
    | false =>
        exact fun cur version loaded version' late =>
          before cur version loaded version' (carried pos version' removes late)
    | true =>
        obtain ⟨outdated, node⟩ := before
        have written := nodes pos (ownPath context pos true stage at_).1
          (at_ ▸ ⟨unregisters, Or.inr ⟨rfl, rfl⟩⟩)
        refine ⟨fun version late => ?_, fun cur version loaded => ?_⟩
        · have old := outdated version (carried pos version removes late)
          rcases written with ⟨_, sameVersion⟩ | ⟨_, newer⟩
          · exact sameVersion ▸ old
          · exact lt_trans old newer
        · rcases written with ⟨sameNode, sameVersion⟩ | ⟨without, _⟩
          · rw [sameNode, sameVersion]
            exact node cur version loaded
          · exact Or.inr without

/-- No swap with the token can still succeed on a node that is refreshed for the second time. -/
theorem Settled.outdated (settled : Settled σ q) {pos : Nat} (onPath : OnPath q pos)
    (finishes : (σ.pc q).finishesFrom pos) (version : Nat) (late : Carried σ pos q version) :
    version < σ.version pos := by
  unfold Pc.finishesFrom at finishes
  split at finishes
  next _ context at' again stage at_ =>
    obtain ⟨unregisters, below | ⟨rfl, rfl⟩⟩ := finishes
    · exact (settled.clean _ onPath (at_ ▸ ⟨unregisters, below⟩)).outdated version late
    · exact (settled.cleaning context _ true stage at_ unregisters).1 version late
  · exact (settled.clean _ onPath finishes).outdated version late

end Settled

/-! ## Steps -/

section Steps

variable {σ next : State shift} {p : Fin (2 ^ shift)} {pc : Pc}

/-- A point that is not inside a refresh. -/
def Pc.Plain (p : Fin (2 ^ shift)) (pc : Pc) : Prop :=
  ∀ context pos again stage, pc = .update context (.refresh pos again stage) →
    stage = .node ∧ OnPath p pos ∧ pos < 2 ^ shift

theorem carried_of_plain (pcs : next.pc = Function.update σ.pc p pc) (plain : pc.Plain p)
    {pos version : Nat} {q : Fin (2 ^ shift)} (late : Carried next pos q version) :
    Carried σ pos q version := by
  obtain ⟨r, context, again, stage, cur, state, at_, loaded, carried, holds⟩ := late
  rw [pcs] at at_
  rcases eq_or_ne r p with rfl | different
  · rw [Function.update_self] at at_
    obtain ⟨rfl, _⟩ := plain context pos again stage at_
    cases loaded
  · rw [Function.update_of_ne different] at at_
    exact ⟨r, context, again, stage, cur, state, at_, loaded, carried, holds⟩

/-- A node is as before, or written with a word that is in its place there. -/
def Written (σ next : State shift) (p : Fin (2 ^ shift)) (pos : Nat) : Prop :=
  next.nodes pos = σ.nodes pos ∧ next.version pos = σ.version pos ∨
    σ.version pos < next.version pos ∧
      (∃ q : Fin (2 ^ shift), getProcessId (next.nodes pos) = processId q) ∧
      (∀ q : Fin (2 ^ shift), Holds q (next.nodes pos) → OnPath q pos) ∧
      ∀ q ≠ p, OnPath q pos → (σ.pc q).finishesFrom pos → ¬ Holds q (next.nodes pos)

/-- A step of `p` to a point outside the refreshes. -/
theorem TreeInvariant.plain (inv : TreeInvariant σ) (pcs : next.pc = Function.update σ.pc p pc)
    (plain : pc.Plain p)
    (leafWord : pc.LeafWord p)
    (written : ∀ pos, Written σ next p pos) (settled : Settled next p) : TreeInvariant next := by
  have self : next.pc p = pc := by rw [pcs, Function.update_self]
  have others : ∀ {q}, q ≠ p → next.pc q = σ.pc q := fun different => by
    rw [pcs, Function.update_of_ne different]
  have inside : ∀ {q context pos again stage},
      next.pc q = .update context (.refresh pos again stage) → stage ≠ .node →
        σ.pc q = .update context (.refresh pos again stage) := by
    intro q context pos again stage at_ beyond
    rcases eq_or_ne q p with rfl | different
    · exact absurd (plain context pos again stage (self ▸ at_)).1 beyond
    · exact others different ▸ at_
  refine ⟨?_, ?_, ?_, ?_, ?_, ?_, ?_, ?_⟩
  · intro pos inTree
    rcases written pos with ⟨same, _⟩ | ⟨_, named, _⟩
    · rw [same]
      exact inv.named pos inTree
    · exact named
  · intro q context pos again stage state at_ carried
    have before := inside at_ (by rintro rfl; cases carried)
    exact inv.carriedNamed q context pos again stage state before carried
  · intro q pos inTree holds
    rcases written pos with ⟨same, _⟩ | ⟨_, _, onPath, _⟩
    · exact inv.onPath q pos inTree (same ▸ holds)
    · exact onPath q holds
  · exact fun q pos version late =>
      inv.carriedOnPath q pos version (carried_of_plain pcs plain late)
  · intro q context pos again stage at_
    rcases eq_or_ne q p with rfl | different
    · exact (plain context pos again stage (self ▸ at_)).2
    · exact inv.ownPath q context pos again stage (others different ▸ at_)
  · intro q context pos again stage cur version at_ loaded
    have before := inside at_ (by rintro rfl; cases loaded)
    obtain ⟨notNewer, current⟩ := inv.loaded q context pos again stage cur version before loaded
    rcases written pos with ⟨sameNode, sameVersion⟩ | ⟨newer, _⟩
    · rw [sameNode, sameVersion]
      exact ⟨notNewer, current⟩
    · exact ⟨notNewer.trans newer.le, fun same => by omega⟩
  · intro q context state at_
    rcases eq_or_ne q p with rfl | different
    · exact leafWord context state (self ▸ at_)
    · exact inv.leafWord q context state (others different ▸ at_)
  · intro q
    rcases eq_or_ne q p with rfl | different
    · exact settled
    · refine (inv.settled q).keep (others different)
        (fun _ _ _ late => carried_of_plain pcs plain late) (fun pos onPath finishes => ?_)
        (inv.ownPath q)
      rcases written pos with same | ⟨newer, _, _, without⟩
      · exact Or.inl same
      · exact Or.inr ⟨without q different onPath finishes, newer⟩

/-- A step of `p` that leaves the tree alone and is outside the updates. -/
theorem TreeInvariant.quiet (inv : TreeInvariant σ) (pcs : next.pc = Function.update σ.pc p pc)
    (nodes : next.nodes = σ.nodes) (version : next.version = σ.version)
    (outside : ∀ context pos again stage, pc ≠ .update context (.refresh pos again stage))
    (leafWord : pc.LeafWord p)
    (clean : ∀ pos, pc.cleanFrom pos → (σ.pc p).cleanFrom pos) : TreeInvariant next := by
  have self : next.pc p = pc := by rw [pcs, Function.update_self]
  have plain : pc.Plain p := fun context pos again stage at_ =>
    absurd at_ (outside context pos again stage)
  refine inv.plain pcs plain leafWord (fun pos => Or.inl ⟨by rw [nodes], by rw [version]⟩) ⟨?_, ?_⟩
  · intro pos onPath cleanAfter
    obtain ⟨node, outdated⟩ := (inv.settled p).clean pos onPath (clean pos (self ▸ cleanAfter))
    exact ⟨nodes ▸ node, fun v late => version ▸ outdated v (carried_of_plain pcs plain late)⟩
  · intro context pos again stage at_
    exact absurd (self.symm.trans at_) (outside context pos again stage)

/-- Behind a node the update goes on to the node above, or is done. -/
theorem plain_ascend (context : Context) {pos : Nat} (onPath : OnPath p pos) :
    (context.proceed (ascend pos)).Plain p := by
  intro context' pos' again stage at_
  unfold ascend at at_
  split at at_
  · cases context <;> cases at_
  next notRoot =>
    obtain ⟨_, rfl, _, rfl⟩ := Pc.refresh_inj at_
    refine ⟨rfl, onPath.parent rfl (by have := onPath.1; omega), ?_⟩
    have := onPath.inTree.2
    omega

theorem ascend_ne_setLeaf (context : Context) (pos : Nat) (context' : Context) (state : Word) :
    context.proceed (ascend pos) ≠ .update context' (.setLeaf state) := by
  unfold ascend
  split
  · cases context <;> nofun
  · nofun

/-- Once a node is done with, the token is out of it and of the nodes below. -/
theorem ascend_cleanFrom {context : Context} {pos a : Nat} (onPath : OnPath p pos)
    (onPath' : OnPath p a) (clean : (context.proceed (ascend pos)).cleanFrom a) :
    context.unregisters = true ∧ pos ≤ a := by
  unfold ascend at clean
  split at clean
  next root =>
    refine ⟨?_, root ▸ onPath'.1⟩
    cases context with
    | register call => exact clean
    | recover call | abort | exit => rfl
  · exact ⟨clean.1, onPath'.le_of_half_lt onPath clean.2⟩

theorem cleaning_ascend (context : Context) {pos : Nat} (onPath : OnPath p pos)
    (at_ : next.pc p = context.proceed (ascend pos)) : Cleaning next p := by
  intro context' pos' again stage here _
  have plain := plain_ascend context onPath context' pos' again stage (at_ ▸ here)
  obtain ⟨rfl, _⟩ := plain
  have first : again = false := by
    rw [at_] at here
    unfold ascend at here
    split at here
    · cases context <;> cases here
    · exact (Pc.refresh_inj here).2.2.1.symm
  rw [first]
  exact fun _ _ loaded => nomatch loaded

@[simp] theorem write_nodes (array : Nodes) (pos : Nat) (state : Word) :
    (array.write pos state).nodes = Function.update array.nodes pos state := rfl

@[simp] theorem write_version (array : Nodes) (pos : Nat) (state : Word) :
    (array.write pos state).version = Function.update array.version pos (array.version pos + 1) :=
  rfl

theorem written_write {pos : Nat} {state : Word} (named : ∃ q : Fin (2 ^ shift),
      getProcessId state = processId q)
    (onPath : ∀ q : Fin (2 ^ shift), Holds q state → OnPath q pos)
    (without : ∀ q ≠ p, OnPath q pos → (σ.pc q).finishesFrom pos → ¬ Holds q state)
    (after : Pc) (a : Nat) :
    Written σ { σ.setPc p after with toNodes := σ.toNodes.write pos state } p a := by
  rcases eq_or_ne a pos with rfl | different
  · refine Or.inr ⟨?_, ?_, ?_, ?_⟩
    · simp
    all_goals simpa
  · exact Or.inl ⟨Function.update_of_ne different _ _, Function.update_of_ne different _ _⟩

/-- The store to the leaf. -/
theorem TreeInvariant.setLeaf (inv : TreeInvariant σ) (small : shift ≤ 16) {context : Context}
    {state : Word} (current : σ.pc p = .update context (.setLeaf state)) :
    TreeInvariant (advanceUpdate σ p context (.setLeaf state)) := by
  obtain ⟨own, inf⟩ := inv.leafWord p context state current
  have mine : ∀ q, Holds q state → q = p := fun q holds =>
    processId_injective small (holds.2.symm.trans own)
  have plain := plain_ascend context (onPath_leaf p)
  refine inv.plain rfl plain (fun context' state' at_ => absurd at_ (ascend_ne_setLeaf _ _ _ _))
    (written_write ⟨p, own⟩ (fun q holds => mine q holds ▸ onPath_leaf p)
      (fun q different _ _ holds => different (mine q holds)) _) ⟨?_, ?_⟩
  · intro a onPath clean
    have after : (advanceUpdate σ p context (.setLeaf state)).pc p =
      context.proceed (ascend (leaf p)) := Function.update_self ..
    rw [after] at clean
    obtain ⟨unregisters, low⟩ := ascend_cleanFrom (onPath_leaf p) onPath clean
    obtain rfl : a = leaf p := le_antisymm onPath.le_leaf low
    refine ⟨?_, fun version late => ?_⟩
    · have node : (advanceUpdate σ p context (.setLeaf state)).nodes (leaf p) = state :=
        Function.update_self ..
      rw [node]
      exact fun holds => holds.1 (inf unregisters)
    · obtain ⟨q, context', again, stage, cur, word, at_, loaded, _⟩ :=
        carried_of_plain rfl plain late
      have notNewer := (inv.loaded q context' _ again stage cur version at_ loaded).1
      have newer : (advanceUpdate σ p context (.setLeaf state)).version (leaf p) =
        σ.version (leaf p) + 1 := Function.update_self ..
      omega
  · exact cleaning_ascend context (onPath_leaf p) (Function.update_self ..)

theorem plain_afterRefresh (context : Context) {pos : Nat} (again : Bool) (onPath : OnPath p pos)
    (inner : pos < 2 ^ shift) :
    (context.proceed (afterRefresh pos again)).Plain p := by
  cases again with
  | true => exact plain_ascend context onPath
  | false =>
      intro context' pos' again' stage at_
      obtain ⟨_, rfl, _, rfl⟩ := Pc.refresh_inj at_
      exact ⟨rfl, onPath, inner⟩

theorem afterRefresh_ne_setLeaf (context : Context) (pos : Nat) (again : Bool)
    (context' : Context) (state : Word) :
    context.proceed (afterRefresh pos again) ≠ .update context' (.setLeaf state) := by
  cases again with
  | true => exact ascend_ne_setLeaf context pos context' state
  | false => nofun

/-- The process itself behind a swap: the second one leaves the node without its token, the
first one leaves the swaps under way with its token behind. -/
theorem settled_afterRefresh (inv : TreeInvariant σ) {context : Context} {pos : Nat} {again : Bool}
    {cur : Word} {version : Nat} {left right : Word}
    (current : σ.pc p = .update context (.refresh pos again (.swap cur version left right)))
    (pcs : next.pc = Function.update σ.pc p (context.proceed (afterRefresh pos again)))
    (above : ∀ a ≠ pos, next.nodes a = σ.nodes a ∧ next.version a = σ.version a)
    (newer : version < next.version pos) (grown : σ.version pos ≤ next.version pos)
    (node : context.unregisters = true → again = true → ¬ Holds p (next.nodes pos)) :
    Settled next p := by
  obtain ⟨onPath, inner⟩ := inv.ownPath p _ _ _ _ current
  have plain := plain_afterRefresh context again onPath inner
  have self : next.pc p = context.proceed (afterRefresh pos again) := by
    rw [pcs, Function.update_self]
  have cleaning := (inv.settled p).cleaning context pos again _ current
  have below : ∀ a, OnPath p a → context.unregisters = true → pos < a → Clean next p a := by
    intro a onPath' unregisters deeper
    obtain ⟨node, outdated⟩ := (inv.settled p).clean a onPath' (current ▸ ⟨unregisters, deeper⟩)
    obtain ⟨sameNode, sameVersion⟩ := above a (by omega)
    exact ⟨sameNode ▸ node,
      fun v late => sameVersion ▸ outdated v (carried_of_plain pcs plain late)⟩
  cases again with
  | false =>
      refine ⟨?_, ?_⟩
      · intro a onPath' clean
        rw [self] at clean
        exact below a onPath' clean.1 clean.2
      · intro context' pos' again' stage at_ unregisters
        obtain ⟨rfl, rfl, rfl, rfl⟩ := Pc.refresh_inj (self.symm.trans at_)
        refine ⟨fun v late => ?_, fun _ _ loaded => nomatch loaded⟩
        exact lt_of_le_of_lt
          (cleaning unregisters cur version rfl v (carried_of_plain pcs plain late)) newer
  | true =>
      refine ⟨?_, cleaning_ascend context onPath self⟩
      intro a onPath' clean
      rw [self] at clean
      obtain ⟨unregisters, low⟩ := ascend_cleanFrom onPath onPath' clean
      rcases Nat.lt_or_eq_of_le low with deeper | rfl
      · exact below a onPath' unregisters deeper
      · refine ⟨node unregisters rfl, fun v late => ?_⟩
        exact lt_of_lt_of_le
          ((cleaning unregisters).1 v (carried_of_plain pcs plain late)) grown

/-- The compare and swap of a refresh, on a node that was not written since it was loaded. -/
theorem TreeInvariant.swap (inv : TreeInvariant σ) {context : Context} {pos : Nat} {again : Bool}
    {cur : Word} {version : Nat} {left right : Word}
    (current : σ.pc p = .update context (.refresh pos again (.swap cur version left right)))
    (fresh : σ.nodes pos ≠ cur ∨ σ.version pos = version) :
    TreeInvariant (advanceUpdate σ p context
      (.refresh pos again (.swap cur version left right))) := by
  obtain ⟨onPath, inner⟩ := inv.ownPath p _ _ _ _ current
  have plain := plain_afterRefresh context again onPath inner
  have carries : ∀ q, Holds q (minState left right) → Carried σ pos q version := fun q holds =>
    ⟨p, context, again, _, cur, _, current, rfl, rfl, holds⟩
  obtain ⟨notNewer, same⟩ := inv.loaded p context pos again _ cur version current rfl
  have leafs : (context.proceed (afterRefresh pos again)).LeafWord p :=
    fun context' state at_ => absurd at_ (afterRefresh_ne_setLeaf _ _ _ _ _)
  unfold advanceUpdate Nodes.advance Nodes.advanceRefresh
  dsimp only
  split
  next unchanged =>
    have now : σ.version pos = version := fresh.resolve_left (not_not.mpr unchanged)
    -- a process that removes its token here has every swap with it outdated, so not this one
    have without :
        ∀ q, OnPath q pos → (σ.pc q).finishesFrom pos → ¬ Holds q (minState left right) := by
      intro q onPath' finishes holds
      have outdated := (inv.settled q).outdated onPath' finishes version (carries q holds)
      omega
    refine inv.plain rfl plain leafs (written_write (inv.carriedNamed p _ _ _ _ _ current rfl)
      (fun q holds => inv.carriedOnPath q pos version (carries q holds))
      (fun q _ => without q) _) (settled_afterRefresh inv current rfl ?_ ?_ ?_ ?_)
    · intro a different
      simp [Function.update_of_ne different]
    · simp only [write_version, Function.update_self]
      omega
    · simp
    · rintro unregisters rfl
      simp only [write_nodes, Function.update_self]
      exact without p onPath (current ▸ ⟨unregisters, Or.inr ⟨rfl, rfl⟩⟩)
  next changed =>
    have older : version < σ.version pos := by
      rcases Nat.lt_or_eq_of_le notNewer with older | now
      · exact older
      · exact absurd (same now).symm changed
    refine inv.plain rfl plain leafs (fun a => Or.inl ⟨rfl, rfl⟩)
      (settled_afterRefresh inv current rfl (fun _ _ => ⟨rfl, rfl⟩) older le_rfl ?_)
    rintro unregisters rfl
    have cleaning := (inv.settled p).cleaning context pos true _ current unregisters
    exact (cleaning.2 cur version rfl).resolve_left (by omega)

/-- Below a node where a process removes its token there is none. -/
theorem TreeInvariant.not_holds_below (inv : TreeInvariant σ) {q : Fin (2 ^ shift)}
    {pos child : Nat} (inTree : InTree shift child) (removes : (σ.pc q).removesFrom pos)
    (deeper : pos < child) : ¬ Holds q (σ.nodes child) := by
  intro holds
  have clean := Pc.cleanFrom_of_removesFrom removes deeper
  exact ((inv.settled q).clean child (inv.onPath q child inTree holds) clean).node holds

/-- A load of a refresh: it has now what it had before, and what the node or a child has. -/
structure Loads (σ : State shift) (pos : Nat) (stage after : Refresh) : Prop where
  loaded : ∀ cur version, after.loaded = some (cur, version) →
    stage.loaded = some (cur, version) ∨
      stage.carried = none ∧ cur = σ.nodes pos ∧ version = σ.version pos
  named : ∀ state, after.carried = some state →
    ∃ q : Fin (2 ^ shift), getProcessId state = processId q
  carried : ∀ state (q : Fin (2 ^ shift)), after.carried = some state → Holds q state →
    (∃ before, stage.carried = some before ∧ Holds q before) ∨
      Holds q (σ.nodes (2 * pos)) ∨ Holds q (σ.nodes (2 * pos + 1))

theorem Loads.carried_cases {context : Context} {pos : Nat} {again : Bool} {stage after : Refresh}
    (loads : Loads σ pos stage after)
    (current : σ.pc p = .update context (.refresh pos again stage))
    {a version : Nat} {q : Fin (2 ^ shift)}
    (late : Carried (σ.setPc p (.update context (.refresh pos again after))) a q version) :
    Carried σ a q version ∨
      a = pos ∧ (Holds q (σ.nodes (2 * pos)) ∨ Holds q (σ.nodes (2 * pos + 1))) := by
  obtain ⟨r, context', again', stage', cur, state, at_, loaded, carried, holds⟩ := late
  rcases eq_or_ne r p with rfl | different
  · simp only [State.setPc, Function.update_self] at at_
    obtain ⟨rfl, rfl, rfl, rfl⟩ := Pc.refresh_inj at_
    rcases loads.carried state q carried holds with ⟨before, had, held⟩ | child
    · have same : stage.loaded = some (cur, version) :=
        (loads.loaded cur version loaded).resolve_right fun fresh => by
          rw [fresh.1] at had
          cases had
      exact Or.inl ⟨r, context, again, stage, cur, before, current, same, had, held⟩
    · exact Or.inr ⟨rfl, child⟩
  · simp only [State.setPc, Function.update_of_ne different] at at_
    exact Or.inl ⟨r, context', again', stage', cur, state, at_, loaded, carried, holds⟩

theorem TreeInvariant.load (inv : TreeInvariant σ) {context : Context} {pos : Nat} {again : Bool}
    {stage after : Refresh} (current : σ.pc p = .update context (.refresh pos again stage))
    (loads : Loads σ pos stage after) :
    TreeInvariant (σ.setPc p (.update context (.refresh pos again after))) := by
  obtain ⟨onPath, inner⟩ := inv.ownPath p _ _ _ _ current
  have positive := onPath.1
  have leftIn : InTree shift (2 * pos) := ⟨by omega, by omega⟩
  have rightIn : InTree shift (2 * pos + 1) := ⟨by omega, by omega⟩
  -- a process that removes its token at a node gains no swap with it there
  have shrinks : ∀ {q a version}, (σ.pc q).removesFrom a →
      Carried (σ.setPc p (.update context (.refresh pos again after))) a q version →
        Carried σ a q version := by
    intro q a version removes late
    rcases loads.carried_cases current late with before | ⟨rfl, left | right⟩
    · exact before
    · exact absurd left (inv.not_holds_below leftIn removes (by omega))
    · exact absurd right (inv.not_holds_below rightIn removes (by omega))
  have own : ∀ {context' a again' stage'},
      (σ.setPc p (.update context (.refresh pos again after))).pc p =
          .update context' (.refresh a again' stage') →
        context' = context ∧ a = pos ∧ again' = again ∧ stage' = after := by
    intro context' a again' stage' at_
    simp only [State.setPc, Function.update_self] at at_
    obtain ⟨rfl, rfl, rfl, rfl⟩ := Pc.refresh_inj at_
    exact ⟨rfl, rfl, rfl, rfl⟩
  have others : ∀ {q}, q ≠ p →
      (σ.setPc p (.update context (.refresh pos again after))).pc q = σ.pc q := fun different => by
    simp [State.setPc, different]
  refine ⟨inv.named, ?_, inv.onPath, ?_, ?_, ?_, ?_, ?_⟩
  · intro q context' a again' stage' state at_ carried
    rcases eq_or_ne q p with rfl | different
    · obtain ⟨_, _, _, rfl⟩ := own at_
      exact loads.named state carried
    · exact inv.carriedNamed q context' a again' stage' state (others different ▸ at_) carried
  · intro q a version late
    rcases loads.carried_cases current late with before | ⟨rfl, left | right⟩
    · exact inv.carriedOnPath q a version before
    · exact (inv.onPath q _ leftIn left).parent (by omega) positive
    · exact (inv.onPath q _ rightIn right).parent (by omega) positive
  · intro q context' a again' stage' at_
    rcases eq_or_ne q p with rfl | different
    · obtain ⟨_, rfl, _⟩ := own at_
      exact ⟨onPath, inner⟩
    · exact inv.ownPath q context' a again' stage' (others different ▸ at_)
  · intro q context' a again' stage' cur version at_ loaded
    rcases eq_or_ne q p with rfl | different
    · obtain ⟨rfl, rfl, rfl, rfl⟩ := own at_
      rcases loads.loaded cur version loaded with before | ⟨_, rfl, rfl⟩
      · exact inv.loaded q _ _ _ _ cur version current before
      · exact ⟨le_rfl, fun _ => rfl⟩
    · exact inv.loaded q context' a again' stage' cur version (others different ▸ at_) loaded
  · intro q context' state at_
    rcases eq_or_ne q p with rfl | different
    · simp [State.setPc] at at_
    · exact inv.leafWord q context' state (others different ▸ at_)
  · intro q
    rcases eq_or_ne q p with rfl | different
    · refine ⟨?_, ?_⟩
      · intro a onPath' clean
        simp only [State.setPc, Function.update_self] at clean
        have before : (σ.pc q).cleanFrom a := current ▸ clean
        obtain ⟨node, outdated⟩ := (inv.settled q).clean a onPath' before
        exact ⟨node, fun version late =>
          outdated version (shrinks (Pc.removesFrom_of_cleanFrom before) late)⟩
      · intro context' a again' stage' at_ unregisters
        obtain ⟨rfl, rfl, rfl, rfl⟩ := own at_
        have removes : (σ.pc q).removesFrom a := current ▸ ⟨unregisters, le_rfl⟩
        have before := (inv.settled q).cleaning _ _ _ _ current unregisters
        cases again' with
        | false =>
            intro cur version loaded version' late
            rcases loads.loaded cur version loaded with same | ⟨_, _, rfl⟩
            · exact before cur version same version' (shrinks removes late)
            · obtain ⟨r, context'', again'', stage'', cur', state, there, read, _⟩ :=
                shrinks removes late
              exact (inv.loaded r _ _ _ _ cur' version' there read).1
        | true =>
            refine ⟨fun version late => before.1 version (shrinks removes late), ?_⟩
            intro cur version loaded
            rcases loads.loaded cur version loaded with same | ⟨_, _, rfl⟩
            · exact before.2 cur version same
            · exact Or.inl rfl
    · exact (inv.settled q).keep (others different) (fun _ _ => shrinks)
        (fun _ _ _ => Or.inl ⟨rfl, rfl⟩) (inv.ownPath q)

/-- Every access of a refresh. -/
theorem TreeInvariant.refresh (inv : TreeInvariant σ) {context : Context} {pos : Nat}
    {again : Bool} {stage : Refresh} (current : σ.pc p = .update context (.refresh pos again stage))
    (fresh : σ.toNodes.unwritten (.refresh pos again stage) = true) :
    TreeInvariant (advanceUpdate σ p context (.refresh pos again stage)) := by
  obtain ⟨onPath, inner⟩ := inv.ownPath p _ _ _ _ current
  have positive := onPath.1
  cases stage with
  | node =>
      refine inv.load current ⟨fun cur version loaded => Or.inr ?_, nofun, nofun⟩
      obtain ⟨rfl, rfl⟩ := Prod.mk.inj (Option.some.inj loaded)
      exact ⟨rfl, rfl, rfl⟩
  | left cur version =>
      refine inv.load current ⟨fun _ _ loaded => Or.inl loaded, ?_, ?_⟩
      · intro state carried
        exact Option.some.inj carried ▸ inv.named (2 * pos) ⟨by omega, by omega⟩
      · intro state q carried holds
        exact Or.inr (Or.inl (Option.some.inj carried ▸ holds))
  | right cur version left =>
      refine inv.load current ⟨fun _ _ loaded => Or.inl loaded, ?_, ?_⟩
      · intro state carried
        rw [← Option.some.inj carried]
        rcases minState_cases left (σ.nodes (2 * pos + 1)) with same | same
        · rw [same]
          exact inv.carriedNamed p context pos again _ left current rfl
        · rw [same]
          exact inv.named (2 * pos + 1) ⟨by omega, by omega⟩
      · intro state q carried holds
        rw [← Option.some.inj carried] at holds
        rcases holds_minState holds with held | held
        · exact Or.inl ⟨left, rfl, held⟩
        · exact Or.inr (Or.inr held)
  | swap cur version left right => exact inv.swap current (by simpa [Nodes.unwritten] using fresh)

end Steps

end Lupin.Lock.MinArray
