import Lupin.Lock.Wport

/-!
# Bounded bypass of the W-port lock

A promoter gives the lock to the first active port behind the last owner. While a port is
active, every hand-over to another one brings the owner closer to it, except for one
hand-over at most: that of a promoter that loaded the active set before.
-/

namespace Lupin.Lock.Wport

open Lupin.Transition

/-! ## Ports behind the last owner -/

section Ahead

variable {W : Nat}

/-- How many ports `next_bit` passes over before it comes to `i`, when it starts behind `k`. -/
def ahead (W k i : Nat) : Nat := (i + W - (k + 1) % W) % W

variable {i k p q : Nat}

theorem ahead_eq (bound : i < W) : ahead W k i =
    if (k + 1) % W ≤ i then i - (k + 1) % W else i + W - (k + 1) % W := by
  have start : (k + 1) % W < W := Nat.mod_lt _ (by omega)
  unfold ahead
  split
  · rw [show i + W - (k + 1) % W = i - (k + 1) % W + W by omega, Nat.add_mod_right]
    exact Nat.mod_eq_of_lt (by omega)
  · exact Nat.mod_eq_of_lt (by omega)

theorem ahead_lt (bound : i < W) : ahead W k i < W := Nat.mod_lt _ (by omega)

theorem ahead_add {d : Nat} (bound : d < W) : ahead W k (((k + 1) % W + d) % W) = d := by
  have start : (k + 1) % W < W := Nat.mod_lt _ (by omega)
  rw [ahead_eq (Nat.mod_lt _ (by omega))]
  rcases Nat.lt_or_ge ((k + 1) % W + d) W with inside | around
  · rw [Nat.mod_eq_of_lt inside, if_pos (by omega)]
    omega
  · rw [Nat.mod_eq_sub_mod around, Nat.mod_eq_of_lt (a := (k + 1) % W + d - W) (by omega),
      if_neg (by omega)]
    omega

theorem add_ahead (bound : i < W) : ((k + 1) % W + ahead W k i) % W = i := by
  have start : (k + 1) % W < W := Nat.mod_lt _ (by omega)
  rw [ahead_eq bound]
  split
  · rw [Nat.mod_eq_of_lt (by omega)]
    omega
  · rw [show (k + 1) % W + (i + W - (k + 1) % W) = i + W by omega, Nat.add_mod_right,
      Nat.mod_eq_of_lt bound]

/-- Another port on the way to `p` is closer to it. -/
theorem ahead_closer (pBound : p < W) (qBound : q < W) (different : q ≠ p)
    (before : ahead W k q ≤ ahead W k p) : ahead W q p < ahead W k p := by
  have start : (k + 1) % W < W := Nat.mod_lt _ (by omega)
  rw [ahead_eq pBound] at before ⊢
  rw [ahead_eq qBound] at before
  rw [ahead_eq pBound]
  rcases Nat.lt_or_ge (q + 1) W with inside | last
  · rw [Nat.mod_eq_of_lt inside]
    split_ifs at before ⊢ <;> omega
  · rw [show q + 1 = W by omega, Nat.mod_self]
    split_ifs at before ⊢ <;> omega

/-- No other port is a whole round away. -/
theorem ahead_other (pBound : p < W) (qBound : q < W) (different : q ≠ p) :
    ahead W q p + 1 < W := by
  rw [ahead_eq pBound]
  rcases Nat.lt_or_ge (q + 1) W with inside | last
  · rw [Nat.mod_eq_of_lt inside]
    split_ifs <;> omega
  · rw [show q + 1 = W by omega, Nat.mod_self]
    split_ifs <;> omega

private theorem nextBitLoop_le (active : BitVec W) (set : isSet active i = true)
    (distance pos fuel : Nat) (reaches : (pos + distance) % W = i) (posBound : pos < W)
    (enough : distance < fuel) :
    ∃ d ≤ distance, nextBitLoop active fuel pos = (pos + d) % W := by
  -- induction on how far the set bit is ahead of `pos`
  induction distance generalizing pos fuel with
  | zero =>
      obtain ⟨rounds, rfl⟩ := Nat.exists_eq_succ_of_ne_zero (by omega : fuel ≠ 0)
      rw [Nat.add_zero, Nat.mod_eq_of_lt posBound] at reaches
      subst reaches
      exact ⟨0, le_rfl, by simp [nextBitLoop, set, Nat.mod_eq_of_lt posBound]⟩
  | succ distance inductionHypothesis =>
      obtain ⟨rounds, rfl⟩ := Nat.exists_eq_succ_of_ne_zero (by omega : fuel ≠ 0)
      unfold nextBitLoop
      split
      · exact ⟨0, Nat.zero_le _, (Nat.mod_eq_of_lt posBound).symm⟩
      · obtain ⟨d, shorter, found⟩ := inductionHypothesis ((pos + 1) % W) rounds
          (by rw [Nat.mod_add_mod, ← reaches]; congr 1; omega) (Nat.mod_lt _ (by omega)) (by omega)
        refine ⟨d + 1, by omega, found.trans ?_⟩
        rw [Nat.mod_add_mod]
        congr 1
        omega

/-- `next_bit` passes over no port of the active set. -/
theorem ahead_nextBit_le {active : BitVec W} (bound : i < W) (set : isSet active i = true) :
    ahead W k (nextBit active k) ≤ ahead W k i := by
  have start : (k + 1) % W < W := Nat.mod_lt _ (by omega)
  obtain ⟨d, nearer, found⟩ := nextBitLoop_le active set (ahead W k i) ((k + 1) % W) W
    (add_ahead bound) start (ahead_lt bound)
  have short := ahead_lt (k := k) bound
  rw [nextBit, found, ahead_add (by omega)]
  exact nearer

end Ahead

/-! ## Hand-overs while a port waits -/

variable {ports : PortSize}

/-- The bit of `p` is set and `p` is not the recorded owner. -/
def State.waiting (σ : State ports) (p : Fin ports.wsize) : Bool :=
  isSet σ.active p && !ownedBy σ.csst p

/-- The step records another process than `p` as the owner. -/
def handsOver (p : Fin ports.wsize) (σ next : State ports) : Bool :=
  !(decomposeWportCsst σ.csst).b && (decomposeWportCsst next.csst).b &&
    (decomposeWportCsst next.csst).s != BitVec.ofNat 64 p

/-- The hand-overs to others in a run, up to where `p` stops waiting: it is recorded as the
owner, or its bit is cleared. -/
def handOvers (p : Fin ports.wsize) : State ports → List (Action ports) → Nat
  | _, [] => 0
  | σ, action :: rest =>
      if σ.waiting p then
        match step σ action with
        | none => 0
        | some next => (handsOver p σ next).toNat + handOvers p next rest
      else 0

/-- The port a process in `exit` has read from `csst`. -/
def Pc.exitOwner : Pc → Option (BitVec 8)
  | .exitUnsetLoad owner | .exitUnsetSub owner | .exitSeqLoad owner
  | .exitSeqStore owner _ | .exitCsst owner _ => some owner
  | _ => none

/-- What a step can do to the status word and to the promoters' choices. -/
inductive Effect (σ next : State ports) : Prop where
  /-- The word stays, and a new choice is made from the active set as it is. -/
  | keep (word : next.csst = σ.csst)
      (choices : ∀ r s owner peer, (next.pc r).choice = some (s, owner, peer) →
        (σ.pc r).choice = some (s, owner, peer) ∨ σ.active = 0 ∨
          peer = BitVec.ofNat 64 (nextBit σ.active owner.toNat))
  /-- A choice is stored. -/
  | promote (r t : Fin ports.wsize) (s : BitVec 64) (owner : BitVec 8) (free : FreeAt σ s owner)
      (chosen : (σ.pc r).choice = some (s, owner, BitVec.ofNat 64 t))
      (word : next.csst = takenWord t)
  /-- The owner stores the free word with its own port. -/
  | release (q : Fin ports.wsize) (word : σ.csst = takenWord q)
      (storing : (σ.pc q).storing = true)
      (freed : FreeAt next σ.seq (BitVec.ofNat 8 q))
      (choices : ∀ r s owner peer, (next.pc r).choice = some (s, owner, peer) →
        (σ.pc r).choice = some (s, owner, peer))

section Effects

variable {σ next : State ports} {r : Fin ports.wsize} {pc : Pc}

private theorem choice_of_update (plain : pc.choice = none)
    (nexts : next.pc = Function.update σ.pc r pc)
    {q : Fin ports.wsize} {s peer : BitVec 64} {owner : BitVec 8}
    (chosen : (next.pc q).choice = some (s, owner, peer)) :
    (σ.pc q).choice = some (s, owner, peer) := by
  rw [nexts] at chosen
  rcases eq_or_ne q r with rfl | different
  · rw [Function.update_self, plain] at chosen
    cases chosen
  · rwa [Function.update_of_ne different] at chosen

/-- A step to a point without a choice that leaves the word alone. -/
theorem Effect.quiet (word : next.csst = σ.csst) (nexts : next.pc = Function.update σ.pc r pc)
    (plain : pc.choice = none) : Effect σ next :=
  .keep word fun _ _ _ _ chosen => Or.inl (choice_of_update plain nexts chosen)

theorem Caller.resume_choice (caller : Caller) : caller.resume.choice = none := by
  cases caller <;> rfl

theorem Effect.loadActive {caller : Caller} {s : BitVec 64} {owner : BitVec 8}
    (nexts : next.pc = Function.update σ.pc r
      (if σ.active ≠ 0 then
        .promoteCas caller s owner (BitVec.ofNat 64 (nextBit σ.active owner.toNat))
      else if caller.flag then .promoteCas caller s owner (BitVec.ofNat 64 r)
      else caller.resume)) (word : next.csst = σ.csst) : Effect σ next := by
  refine .keep word fun q s' owner' peer chosen => ?_
  by_cases someone : σ.active ≠ 0
  · rw [nexts, if_pos someone] at chosen
    rcases eq_or_ne q r with rfl | different
    · rw [Function.update_self] at chosen
      simp only [Pc.choice, Option.some.injEq, Prod.mk.injEq] at chosen
      obtain ⟨_, rfl, rfl⟩ := chosen
      exact Or.inr (Or.inr rfl)
    · rw [Function.update_of_ne different] at chosen
      exact Or.inl chosen
  · exact Or.inr (Or.inl (not_not.mp someone))

theorem Invariant.effect_swap (inv : Invariant σ) {caller : Caller} {s csst peer : BitVec 64}
    {owner : BitVec 8} (current : σ.pc r = .promoteCas caller s owner peer)
    (swapped : promoteSwap σ.csst s owner peer = some csst) :
    Effect σ { σ.setPc r caller.resume with csst := csst } := by
  obtain ⟨seqBound, portBound⟩ := inv.seen_bounds (p := r) (by rw [current]; rfl)
  rcases promoteSwap_cases seqBound portBound swapped with
    ⟨expected, desired⟩ | ⟨_, unchanged⟩
  · have free : FreeAt σ s owner := ⟨seqBound, portBound, expected⟩
    have chosen : (σ.pc r).choice = some (s, owner, peer) := by rw [current]; rfl
    obtain ⟨t, rfl⟩ := inv.exists_choice chosen
    rw [composePeer t] at desired
    exact .promote r t s owner free chosen (Option.some.inj desired).symm
  · exact .quiet unchanged rfl caller.resume_choice

/-- Every process in `exit` has read its own port. -/
def ExitsAsOwner (σ : State ports) : Prop :=
  ∀ q owner, (σ.pc q).exitOwner = some owner → owner = BitVec.ofNat 8 q

theorem Invariant.effect_release (inv : Invariant σ) (exits : ExitsAsOwner σ) {s : BitVec 64}
    {owner : BitVec 8} {csst : BitVec 64} (current : σ.pc r = .exitCsst owner s)
    (composed : composeWportCsst false (s + 1) owner = some csst) :
    Effect σ { σ.setPc r (.promoteRead .exit) with csst := csst } := by
  have located := inv.located r
  rw [current] at located
  have bound := inv.bound
  rw [located.2, composeWportCsst_eq (by omega) located.1] at composed
  have port := exits r owner (by rw [current]; rfl)
  refine .release r (inv.holder (p := r) (by rw [current]; rfl)) (by rw [current]; rfl)
    ⟨by omega, port ▸ located.1, ?_⟩ fun q _ _ _ chosen => choice_of_update rfl rfl chosen
  rw [← port]
  exact (Option.some.inj composed).symm

theorem Invariant.effect (inv : Invariant σ) (exits : ExitsAsOwner σ) {action : Action ports}
    (taken : Wport.step σ action = some next) : Effect σ next := by
  cases action with
  | enter p | exit p =>
      simp only [Wport.step, Option.ite_none_right_eq_some] at taken
      obtain ⟨_, same⟩ := taken
      exact Option.some.inj same ▸ .quiet rfl rfl rfl
  | advance p abortSignal =>
      simp only [Wport.step] at taken
      unfold advanceProcess at taken
      cases current : σ.pc p with
      | idle | critical => simp [current] at taken
      | setAdd | abortUnsetSub | exitRead | exitUnsetSub | exitSeqLoad | exitSeqStore =>
          simp only [current] at taken
          exact Option.some.inj taken ▸ .quiet rfl rfl rfl
      | tryRead | setLoad | tryCheck | spinRead | finalRead | abortUnsetLoad | abortCheck
      | exitUnsetLoad | promoteRead =>
          simp only [current] at taken
          refine Option.some.inj taken ▸ .quiet rfl rfl ?_
          split <;> first | rfl | exact Caller.resume_choice _
      | promoteLoad caller s owner =>
          simp only [current] at taken
          exact Option.some.inj taken ▸ .loadActive rfl rfl
      | promoteCas caller s owner peer =>
          simp only [current] at taken
          split at taken
          · cases taken
          next csst swapped => exact Option.some.inj taken ▸ inv.effect_swap current swapped
      | exitCsst owner s =>
          simp only [current] at taken
          split at taken
          · cases taken
          next csst composed =>
            exact Option.some.inj taken ▸ inv.effect_release exits current composed

theorem ExitsAsOwner.update (exits : ExitsAsOwner σ) (nexts : next.pc = Function.update σ.pc r pc)
    (reads : ∀ owner, pc.exitOwner = some owner → owner = BitVec.ofNat 8 r) :
    ExitsAsOwner next := by
  intro q owner carries
  rw [nexts] at carries
  rcases eq_or_ne q r with rfl | different
  · exact reads owner (by rwa [Function.update_self] at carries)
  · exact exits q owner (by rwa [Function.update_of_ne different] at carries)

theorem Caller.resume_exitOwner (caller : Caller) : caller.resume.exitOwner = none := by
  cases caller <;> rfl

/-- The owner read by `exit` is the process itself, which the word records. -/
theorem Invariant.exitsAsOwner (inv : Invariant σ) (exits : ExitsAsOwner σ)
    {action : Action ports} (taken : Wport.step σ action = some next) : ExitsAsOwner next := by
  cases action with
  | enter p | exit p =>
      simp only [Wport.step, Option.ite_none_right_eq_some] at taken
      obtain ⟨_, same⟩ := taken
      obtain rfl := Option.some.inj same
      exact exits.update rfl (by intro _ reads; cases reads)
  | advance p abortSignal =>
      have before := exits p
      simp only [Wport.step] at taken
      unfold advanceProcess at taken
      cases current : σ.pc p with
      | idle | critical => simp [current] at taken
      | setAdd | abortUnsetSub =>
          simp only [current] at taken
          obtain rfl := Option.some.inj taken
          exact exits.update rfl (by intro _ reads; cases reads)
      | exitUnsetSub | exitSeqLoad | exitSeqStore =>
          simp only [current] at taken before
          obtain rfl := Option.some.inj taken
          exact exits.update rfl fun owner reads => before owner reads
      | exitRead =>
          simp only [current] at taken
          obtain rfl := Option.some.inj taken
          refine exits.update rfl fun owner reads => ?_
          rw [inv.holder (p := p) (by rw [current]; rfl), decompose_takenWord] at reads
          exact (Option.some.inj reads).symm
      | exitUnsetLoad =>
          simp only [current] at taken before
          obtain rfl := Option.some.inj taken
          refine exits.update rfl ?_
          split <;> exact fun owner reads => before owner reads
      | tryRead | setLoad | tryCheck | spinRead | finalRead | abortUnsetLoad | abortCheck =>
          simp only [current] at taken
          obtain rfl := Option.some.inj taken
          refine exits.update rfl ?_
          split <;> (intro _ reads; cases reads)
      | promoteRead caller | promoteLoad caller =>
          simp only [current] at taken
          obtain rfl := Option.some.inj taken
          refine exits.update rfl ?_
          split_ifs <;> first
            | simp [caller.resume_exitOwner]
            | simp [Pc.exitOwner]
      | promoteCas caller =>
          simp only [current] at taken
          split at taken
          · cases taken
          · obtain rfl := Option.some.inj taken
            exact exits.update rfl (by simp [caller.resume_exitOwner])
      | exitCsst =>
          simp only [current] at taken
          split at taken
          · cases taken
          · obtain rfl := Option.some.inj taken
            exact exits.update rfl (by intro _ reads; cases reads)

end Effects

/-! ## The bound -/

/-- At most `budget` hand-overs to others are to come while `p` waits. A whole round is
enough; fewer are once no promoter's choice lies beyond `p`. -/
structure Budget (σ : State ports) (p : Fin ports.wsize) (budget : Nat) : Prop where
  taken : ∀ q : Fin ports.wsize, σ.csst = takenWord q → ahead ports.wsize q p ≤ budget
  free : ∀ s owner, FreeAt σ s owner → ports.wsize ≤ budget + 1 ∨
    ahead ports.wsize owner.toNat p ≤ budget ∧
      ∀ (r t : Fin ports.wsize), (σ.pc r).choice = some (s, owner, BitVec.ofNat 64 t) →
        ahead ports.wsize owner.toNat t ≤ ahead ports.wsize owner.toNat p

section Budget

variable {σ next : State ports} {p : Fin ports.wsize} {budget : Nat}

/-- At any time a round is enough. -/
theorem budget_round (σ : State ports) (p : Fin ports.wsize) : Budget σ p (ports.wsize - 1) := by
  refine ⟨fun q _ => ?_, fun s owner _ => Or.inl (by omega)⟩
  have := ahead_lt (k := q) p.2
  omega

theorem waiting_iff (inv : Invariant σ) : σ.waiting p = true ↔
    isSet σ.active p = true ∧ σ.csst ≠ takenWord p := by
  rw [State.waiting, Bool.and_eq_true, Bool.not_eq_true', ← Bool.not_eq_true,
    inv.stored.ownedBy_iff p]

theorem ofNat_injective {t q : Fin ports.wsize}
    (same : BitVec.ofNat 64 t.val = BitVec.ofNat 64 q.val) : t = q := by
  have values := congrArg BitVec.toNat same
  simp only [BitVec.toNat_ofNat] at values
  have := ports.wsize_le
  apply Fin.ext
  omega

/-- The word stays: promoters that choose now see the bit of `p`. -/
theorem Budget.keep (bounded : Budget σ p budget) (set : isSet σ.active p = true)
    (word : next.csst = σ.csst)
    (choices : ∀ r s owner peer, (next.pc r).choice = some (s, owner, peer) →
      (σ.pc r).choice = some (s, owner, peer) ∨ σ.active = 0 ∨
        peer = BitVec.ofNat 64 (nextBit σ.active owner.toNat)) : Budget next p budget := by
  refine ⟨fun q taken => bounded.taken q (word ▸ taken), fun s owner free => ?_⟩
  refine (bounded.free s owner ⟨free.seqBound, free.portBound, word ▸ free.free⟩).imp_right ?_
  rintro ⟨near, before⟩
  refine ⟨near, fun r t chosen => ?_⟩
  have someone : σ.active ≠ 0 := by
    rintro empty
    rw [isSet_eq_getLsbD _ p.2, empty] at set
    simp at set
  rcases choices r s owner _ chosen with old | empty | fresh
  · exact before r t old
  · exact absurd empty someone
  · obtain ⟨_, inRange⟩ := nextBit_isSet someone owner.toNat
    have same : t = ⟨_, inRange⟩ := ofNat_injective fresh
    rw [same]
    exact ahead_nextBit_le p.2 set

/-- A hand-over to another process takes one from the budget. -/
theorem Budget.promote (bounded : Budget σ p budget) {r t : Fin ports.wsize} {s : BitVec 64}
    {owner : BitVec 8} (free : FreeAt σ s owner)
    (chosen : (σ.pc r).choice = some (s, owner, BitVec.ofNat 64 t))
    (word : next.csst = takenWord t) (different : t ≠ p) :
    0 < budget ∧ Budget next p (budget - 1) := by
  have others : (t : Nat) ≠ p := fun same => different (Fin.ext same)
  have apart := ahead_other p.2 t.2 others
  have closer : ahead ports.wsize t p < budget := by
    rcases bounded.free s owner free with round | ⟨near, before⟩
    · omega
    · exact lt_of_lt_of_le (ahead_closer p.2 t.2 others (before r t chosen)) near
  refine ⟨by omega, fun q taken => ?_, fun s' owner' freeAfter => ?_⟩
  · obtain rfl := takenWord_injective (word.symm.trans taken)
    omega
  · exact absurd word (freeAfter.ne_taken t)

/-- The owner leaves: no promoter has loaded the new word. -/
theorem Budget.release (bounded : Budget σ p budget) (inv : Invariant σ) {q : Fin ports.wsize}
    (word : σ.csst = takenWord q) (storing : (σ.pc q).storing = true)
    (freed : FreeAt next σ.seq (BitVec.ofNat 8 q))
    (choices : ∀ r s owner peer, (next.pc r).choice = some (s, owner, peer) →
      (σ.pc r).choice = some (s, owner, peer)) : Budget next p budget := by
  have small := ports.wsize_le
  have port : (BitVec.ofNat 8 q.val).toNat = q := by
    rw [BitVec.toNat_ofNat]
    omega
  refine ⟨fun q' taken => absurd taken (freed.ne_taken q'), fun s owner free => Or.inr ?_⟩
  obtain ⟨rfl, rfl⟩ := free.unique freed
  rw [port]
  refine ⟨bounded.taken q word, fun r t chosen => ?_⟩
  have seen := Pc.seen_of_choice (choices r _ _ _ chosen)
  exact absurd (inv.handover.older r _ q seen storing) (lt_irrefl _)

theorem handsOver_eq_false {σ next : State ports} (word : next.csst = σ.csst) :
    handsOver p σ next = false := by
  simp [handsOver, word]

/-- Every step costs as much of the budget as it hands over. -/
theorem Budget.step (bounded : Budget σ p budget) (effect : Effect σ next) (inv : Invariant σ)
    (waiting : σ.waiting p = true) :
    (handsOver p σ next).toNat ≤ budget ∧
      (next.csst ≠ takenWord p → Budget next p (budget - (handsOver p σ next).toNat)) := by
  cases effect with
  | keep word choices =>
      rw [handsOver_eq_false word]
      exact ⟨Nat.zero_le _, fun _ => bounded.keep ((waiting_iff inv).mp waiting).1 word choices⟩
  | promote r t s owner free chosen word =>
      have hands : handsOver p σ next = (BitVec.ofNat 64 t.val != BitVec.ofNat 64 p.val) := by
        rw [handsOver, word, decompose_takenWord, free.free,
          decompose_wportWord free.seqBound free.portBound]
        rfl
      rcases eq_or_ne t p with rfl | different
      · simp [hands, word]
      · have others : BitVec.ofNat 64 t.val ≠ BitVec.ofNat 64 p.val :=
          fun same => different (ofNat_injective same)
        obtain ⟨positive, rest⟩ := bounded.promote free chosen word different
        rw [hands, bne_iff_ne.mpr others]
        exact ⟨positive, fun _ => rest⟩
  | release q word storing freed choices =>
      have hands : handsOver p σ next = false := by
        rw [handsOver, word, decompose_takenWord]
        rfl
      rw [hands]
      exact ⟨Nat.zero_le _, fun _ => bounded.release inv word storing freed choices⟩

/-- The run lemma: the hand-overs of a run are within the budget it starts with. -/
theorem handOvers_le (actions : List (Action ports))
    (meets : (lock ports).runMeets seqInRange σ actions = true) (inv : Invariant σ)
    (exits : ExitsAsOwner σ) (bounded : σ.csst ≠ takenWord p → Budget σ p budget) :
    handOvers p σ actions ≤ budget := by
  induction actions generalizing σ budget with
  | nil => exact Nat.zero_le _
  | cons action rest inductionHypothesis =>
      rw [Machine.runMeets] at meets
      rw [handOvers]
      split
      next waiting =>
        cases taken : Wport.step σ action with
        | none => exact Nat.zero_le _
        | some next =>
            simp only [lock, taken, Bool.and_eq_true] at meets
            obtain ⟨cost, left⟩ := (bounded ((waiting_iff inv).mp waiting).2).step
              (inv.effect exits taken) inv waiting
            have later := inductionHypothesis meets.2 (inv.step taken meets.1)
              (inv.exitsAsOwner exits taken) left
            dsimp only
            omega
      · exact Nat.zero_le _

end Budget

theorem kept_of_reachable {σ : State ports}
    (reached : (lock ports).Reachable (fun σ action next => seqInRange σ action next = true) σ) :
    Invariant σ ∧ ExitsAsOwner σ := by
  induction reached with
  | initial => exact ⟨invariant_initial ports, by intro _ _ carries; cases carries⟩
  | step _ taken inRange inductionHypothesis =>
      obtain ⟨inv, exits⟩ := inductionHypothesis
      exact ⟨inv.step taken inRange, inv.exitsAsOwner exits taken⟩

/-- From any reachable state on, while the bit of `p` is set and `p` is not the recorded owner,
the lock is handed to other processes at most W times. -/
theorem bypass_bounded {σ : State ports}
    (reached : (lock ports).Reachable (fun σ action next => seqInRange σ action next = true) σ)
    (p : Fin ports.wsize) (actions : List (Action ports))
    (meets : (lock ports).runMeets seqInRange σ actions = true) :
    handOvers p σ actions ≤ ports.wsize := by
  obtain ⟨inv, exits⟩ := kept_of_reachable reached
  have round := handOvers_le actions meets inv exits fun _ => budget_round σ p
  omega

def thirdPort : Fin PortSize.w8.wsize := ⟨2, by decide⟩

/-- The first port is in the critical section; the third and then the second wait. -/
def twoWait : List (Action .w8) :=
  .enter firstPort :: List.replicate 8 (.advance firstPort false) ++
    .enter thirdPort :: List.replicate 6 (.advance thirdPort false) ++
    .enter secondPort :: List.replicate 6 (.advance secondPort false)

/-- The first port leaves. -/
def firstLeaves : List (Action .w8) :=
  .exit firstPort :: List.replicate 9 (.advance firstPort false)

theorem bypass_bounded_twoWait :
    handOvers thirdPort ((lock .w8).final twoWait) firstLeaves = 1 ∧
      handOvers thirdPort ((lock .w8).final twoWait) firstLeaves ≤ 8 :=
  ⟨by decide +kernel, bypass_bounded
    (Machine.reachable_final seqInRange (fun _ _ _ => id) twoWait (by decide +kernel))
    thirdPort firstLeaves (by decide +kernel)⟩

end Lupin.Lock.Wport
