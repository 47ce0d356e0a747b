import Lupin.Lib.Handover
import Lupin.Lock.MinArrayTree

/-!
# The owner of the min-array lock

The lock is handed over by compare and swap; who is chosen has its token at the root of
the tree or is the process that swaps. As long as no token stays behind, the recorded owner
is a process that asks for the lock.
-/

namespace Lupin.Lock.MinArray

open Lupin.Transition Lupin.Handover

variable {shift : Nat}

/-! ## The status word -/

/-- The process with this id. -/
def processOf (peer : Word) : Fin (2 ^ shift) :=
  ⟨peer.toNat % 2 ^ shift, Nat.mod_lt _ (Nat.two_pow_pos _)⟩

/-- The word that records process `p` as the owner. -/
def takenWord (p : Fin (2 ^ shift)) : Word := composeCsStatus true ((processId p).setWidth 64)

/-- Who has the lock. -/
def statusWord (shift : Nat) (csStatus : Word) : Handover.Word Word (Fin (2 ^ shift)) :=
  if (decomposeCsStatus csStatus).b = 0 then .free (decomposeCsStatus csStatus).s
  else .taken (processOf (decomposeCsStatus csStatus).s)

/-- A word the lock stores: free with a sequence number in range, or taken. -/
def StatusWord (shift : Nat) (csStatus : Word) : Prop :=
  (∃ s : Word, s.toNat < 2 ^ 62 ∧ csStatus = composeCsStatus false s) ∨
    ∃ p : Fin (2 ^ shift), csStatus = takenWord p

section Words

variable {p q : Fin (2 ^ shift)} {csStatus s : Word}

theorem toNat_processId (small : shift ≤ 16) (p : Fin (2 ^ shift)) :
    ((processId p).setWidth 64).toNat = p := by
  have bound : 2 ^ shift ≤ 2 ^ 16 := Nat.pow_le_pow_right (by decide) small
  simp only [processId, BitVec.toNat_setWidth, BitVec.toNat_ofNat]
  omega

theorem processOf_processId (small : shift ≤ 16) (p : Fin (2 ^ shift)) :
    processOf ((processId p).setWidth 64) = p := by
  apply Fin.ext
  simp only [processOf, toNat_processId small p]
  exact Nat.mod_eq_of_lt p.2

theorem statusWord_free (bound : s.toNat < 2 ^ 62) :
    statusWord shift (composeCsStatus false s) = .free s := by
  simp [statusWord, decompose_composeCsStatus false bound]

theorem decompose_takenWord (small : shift ≤ 16) (p : Fin (2 ^ shift)) :
    decomposeCsStatus (takenWord p) = ⟨csstBMask, (processId p).setWidth 64⟩ := by
  have value := toNat_processId small p
  have bound : 2 ^ shift ≤ 2 ^ 16 := Nat.pow_le_pow_right (by decide) small
  rw [takenWord, decompose_composeCsStatus true (by omega)]
  rfl

theorem csstBMask_ne_zero : csstBMask ≠ 0 := by decide

theorem statusWord_taken (small : shift ≤ 16) (p : Fin (2 ^ shift)) :
    statusWord shift (takenWord p) = .taken p := by
  rw [statusWord, decompose_takenWord small, if_neg csstBMask_ne_zero, processOf_processId small]

/-- The test the code makes is the one on the owner. -/
theorem StatusWord.ownedBy_iff (word : StatusWord shift csStatus) (small : shift ≤ 16) :
    ownedBy csStatus p = true ↔ statusWord shift csStatus = .taken p := by
  rcases word with ⟨s, bound, rfl⟩ | ⟨q, rfl⟩
  · rw [statusWord_free bound, ownedBy, decompose_composeCsStatus false bound]
    simp
  · rw [statusWord_taken small, ownedBy, decompose_takenWord small]
    simp only [bne_iff_ne, ne_eq, csstBMask_ne_zero, not_false_eq_true, Bool.and_eq_true,
      beq_iff_eq, true_and, Handover.Word.taken.injEq]
    constructor
    · intro same
      rw [← processOf_processId small q, same, processOf_processId small]
    · rintro rfl
      rfl

theorem StatusWord.eq_compose (word : StatusWord shift csStatus) (small : shift ≤ 16)
    (free : statusWord shift csStatus = .free s) :
    csStatus = composeCsStatus false s ∧ s.toNat < 2 ^ 62 := by
  rcases word with ⟨s', bound, rfl⟩ | ⟨q, rfl⟩
  · rw [statusWord_free bound] at free
    obtain rfl := Handover.Word.free.inj free
    exact ⟨rfl, bound⟩
  · rw [statusWord_taken small] at free
    cases free

end Words

/-! ## What a process at each point has done -/

/-- In the critical section, or in `exit` before its store to `cs_status`. -/
def Pc.holds : Pc → Bool
  | .critical | .update .exit _ | .exitSeqRead | .exitSeqStore _
  | .exitCs _ => true
  | _ => false

/-- Cannot leave the lock's code without looking at the word again. -/
def Pc.attends : Pc → Bool
  | .idle | .recoverRead _ | .tryRead _ | .tokenRead _ | .tokenCas _ _
  | .update (.register _) (.setLeaf _)
  | .promoteRead .exit | .promoteMin .exit _ | .promoteCas .exit _ _ => false
  | _ => true

/-- Will not give up while the free word stays at `s`: it is registered, or has loaded just this
word for the swap its abort depends on. -/
def Pc.waits (s : Word) : Pc → Bool
  | .update (.register _) (.refresh _ _ _) | .promoteRead (.register _)
  | .promoteMin (.register _) _ | .promoteCas (.register _) _ _ | .check (.register _) => true
  | .spinRead _ | .finalRead _ => true
  | .update .abort _ | .promoteRead .abort => true
  | .promoteMin .abort s' | .promoteCas .abort s' _ => s' == s
  | _ => false

def Pc.seen : Pc → Option Word
  | .promoteMin _ s | .promoteCas _ s _ => some s
  | _ => none

def Pc.choice : Pc → Option (Fin (2 ^ shift))
  | .promoteCas _ _ peer => some (processOf peer)
  | _ => none

def Pc.storing : Pc → Bool
  | .exitCs _ => true
  | _ => false

theorem Pc.attends_of_waits {pc : Pc} {s : Word} (waiting : pc.waits s = true) :
    pc.attends = true := by
  cases pc with
  | update context rest =>
      cases context <;> cases rest <;> first | rfl | exact absurd waiting Bool.false_ne_true
  | promoteRead context | promoteMin context | promoteCas context | check context =>
      cases context <;> first | rfl | exact absurd waiting Bool.false_ne_true
  | spinRead | finalRead => rfl
  | _ => exact absurd waiting Bool.false_ne_true

theorem Pc.holds_of_storing {pc : Pc} (storing : pc.storing = true) : pc.holds = true := by
  cases pc with
  | exitCs s => rfl
  | _ => exact absurd storing Bool.false_ne_true

/-- A point of the lock's code, as a stance towards the status word. -/
def Pc.stance (shift : Nat) (pc : Pc) : Stance Word (Fin (2 ^ shift)) where
  holds := pc.holds
  attends := pc.attends
  waits := fun s => pc.waits s
  seen := pc.seen
  choice := pc.choice
  storing := pc.storing
  attends_of_waits _ := Pc.attends_of_waits
  holds_of_storing := Pc.holds_of_storing

/-- What a process has read, and that a process that asks is never found to be the owner by
`recover`. -/
def Located (shift : Nat) (seq : Word) : Pc → Prop
  | .update (.recover _) _ | .promoteRead (.recover _)
  | .promoteMin (.recover _) _ | .promoteCas (.recover _) _ _ | .check (.recover _)
  | .check .exit => False
  | .promoteMin _ s => s.toNat < 2 ^ 62
  | .promoteCas _ s peer =>
      s.toNat < 2 ^ 62 ∧ ∃ t : Fin (2 ^ shift), peer = (processId t).setWidth 64
  | .exitSeqStore s => s = seq
  | .exitCs s => s + 1 = seq
  | _ => True

structure Invariant (σ : State shift) : Prop where
  tree : TreeInvariant σ
  bound : σ.seq.toNat < 2 ^ 62
  word : StatusWord shift σ.csStatus
  handover : Handover.Invariant BitVec.toNat (statusWord shift σ.csStatus) σ.seq.toNat
    fun p => (σ.pc p).stance shift
  located : ∀ p, Located shift σ.seq (σ.pc p)

/-- A process whose token may be at the root and that has not the lock waits. -/
theorem Pc.waits_of_listed {pc : Pc} {seq s : Word} (listed : ¬ pc.cleanFrom 1)
    (outside : pc.holds = false) (located : Located shift seq pc) : pc.waits s = true := by
  cases pc with
  | update context rest =>
      cases context <;> cases rest <;>
        first | rfl | exact located.elim | exact absurd rfl listed | exact nomatch outside
  | promoteRead context | promoteMin context | promoteCas context | check context =>
      cases context <;> first | rfl | exact located.elim | exact absurd rfl listed
  | spinRead | finalRead => rfl
  | critical => exact nomatch outside
  | _ => exact absurd trivial listed

/-! ## Steps -/

section Steps

variable {σ next : State shift} {p : Fin (2 ^ shift)} {pc : Pc}

/-- What the step of `p` to `pc` owes the word. -/
abbrev Moves (σ : State shift) (p : Fin (2 ^ shift)) (pc : Pc) : Prop :=
  Move BitVec.toNat (statusWord shift σ.csStatus) σ.seq.toNat
    (fun q => (σ.pc q).stance shift) p (pc.stance shift)

theorem stance_update (pcs : next.pc = Function.update σ.pc p pc) :
    (fun q => (next.pc q).stance shift) =
      Function.update (fun q => (σ.pc q).stance shift) p (pc.stance shift) := by
  funext q
  rw [pcs]
  rcases eq_or_ne q p with rfl | different
  · simp
  · simp [Function.update_of_ne different]

theorem located_update {seq : Word} (pcs : next.pc = Function.update σ.pc p pc)
    (located : Located shift seq pc) (others : ∀ q ≠ p, Located shift seq (σ.pc q)) :
    ∀ q, Located shift seq (next.pc q) := by
  intro q
  rw [pcs]
  rcases eq_or_ne q p with rfl | different
  · rwa [Function.update_self]
  · rw [Function.update_of_ne different]
    exact others q different

/-- A step that leaves the status word and `seq` alone. -/
theorem Invariant.move (inv : Invariant σ) (tree : TreeInvariant next)
    (word : next.csStatus = σ.csStatus) (seq : next.seq = σ.seq)
    (pcs : next.pc = Function.update σ.pc p pc) (moves : Moves σ p pc)
    (located : Located shift σ.seq pc) : Invariant next where
  tree := tree
  bound := seq ▸ inv.bound
  word := word ▸ inv.word
  handover := by
    rw [word, seq, stance_update pcs]
    exact inv.handover.move moves
  located := by
    rw [seq]
    exact located_update pcs located fun q _ => inv.located q

/-- `promote` returns without a swap. -/
theorem Invariant.resume (inv : Invariant σ) (context : Context)
    (exits : context = .exit → (σ.pc p).attends = false)
    (recovers : ∀ call, context ≠ .recover call)
    (aborts : context = .abort → ∀ s, statusWord shift σ.csStatus = .free s →
      (σ.pc p).waits s = false) : Moves σ p context.afterPromote := by
  cases context with
  | register call => exact .linger rfl rfl rfl fun _ => rfl
  | recover call => exact absurd rfl (recovers call)
  | abort =>
      refine .plain (fun held => nomatch held) (fun _ => rfl) rfl rfl fun key free waiting => ?_
      exact absurd waiting (by simp [Pc.stance, aborts rfl key free])
  | exit => exact inv.handover.approach (exits rfl) rfl rfl

/-- `promote` has loaded a free word. -/
theorem loadWord {context : Context} {s : Word} (current : σ.pc p = .promoteRead context)
    (free : statusWord shift σ.csStatus = .free s) : Moves σ p (.promoteMin context s) := by
  refine .load free rfl rfl rfl fun waiting => ?_
  simp only [current] at waiting
  cases context with
  | register call => rfl
  | abort =>
      change (s == s) = true
      simp
  | recover call | exit => exact nomatch waiting

/-- `promote` has chosen a process that waits. -/
theorem Invariant.choose (inv : Invariant σ) (small : shift ≤ 16) {context : Context} {s : Word}
    (current : σ.pc p = .promoteMin context s) {t : Fin (2 ^ shift)}
    (waits : statusWord shift σ.csStatus = .free s → (σ.pc t).waits s = true) :
    Moves σ p (.promoteCas context s ((processId t).setWidth 64)) := by
  refine inv.handover.choose s t ?_ rfl ?_ rfl ?_ ?_ waits
  · simp [Pc.stance, current, Pc.seen]
  · intro attending
    simp only [Pc.stance, current] at attending ⊢
    cases context <;> exact attending
  · simp [Pc.stance, Pc.choice, processOf_processId small]
  · intro key waiting
    simp only [Pc.stance, current] at waiting ⊢
    cases context <;> exact waiting

/-- The load of the root in `promote`. -/
theorem Invariant.promoteMin (inv : Invariant σ) (small : shift ≤ 16) {context : Context} {s : Word}
    (current : σ.pc p = .promoteMin context s) :
    let after : Pc := if getCounter (σ.nodes 1) = counterInf then
        (if context.flag then .promoteCas context s ((processId p).setWidth 64)
        else context.afterPromote)
      else .promoteCas context s ((getProcessId (σ.nodes 1)).setWidth 64)
    Moves σ p after ∧ Located shift σ.seq after := by
  have located := inv.located p
  rw [current] at located
  have recovers : ∀ call, context ≠ .recover call := by
    rintro call rfl
    exact located
  have range : s.toNat < 2 ^ 62 := by
    cases context <;> first | exact located | exact located.elim
  have promotes (t : Fin (2 ^ shift)) :
      Located shift σ.seq (.promoteCas context s ((processId t).setWidth 64)) := by
    cases context with
    | recover call => exact absurd rfl (recovers call)
    | register call | abort | exit => exact ⟨range, t, rfl⟩
  intro after
  by_cases empty : getCounter (σ.nodes 1) = counterInf
  · cases flag : context.flag with
    | true =>
        have here : after = .promoteCas context s ((processId p).setWidth 64) := by
          simp [after, empty, flag]
        rw [here]
        refine ⟨inv.choose small current fun _ => ?_, promotes p⟩
        rw [current]
        cases context with
        | abort =>
            change (s == s) = true
            simp
        | recover call => exact absurd rfl (recovers call)
        | register call | exit => exact nomatch flag
    | false =>
        have here : after = context.afterPromote := by simp [after, empty, flag]
        rw [here]
        refine ⟨inv.resume context ?_ recovers ?_, ?_⟩
        · rintro rfl
          rw [current]
          rfl
        · rintro rfl
          exact nomatch flag
        · cases context <;> trivial
  · obtain ⟨t, named⟩ := inv.tree.named 1 inTree_root
    have here : after = .promoteCas context s ((processId t).setWidth 64) := by
      simp [after, empty, named]
    rw [here]
    have holds : Holds t (σ.nodes 1) := ⟨empty, named⟩
    refine ⟨inv.choose small current fun free => ?_, promotes t⟩
    refine Pc.waits_of_listed ?_ (inv.handover.not_holds free t) (inv.located t)
    intro clean
    exact ((inv.tree.settled t).clean 1 (inv.tree.onPath t 1 inTree_root holds) clean).node holds

/-- The compare and swap of `promote`, whether or not it succeeds. -/
theorem Invariant.promoteCas (inv : Invariant σ) (small : shift ≤ 16) {context : Context}
    {s peer : Word} (current : σ.pc p = .promoteCas context s peer)
    (tree : TreeInvariant next) (pcs : next.pc = Function.update σ.pc p context.afterPromote)
    (seq : next.seq = σ.seq)
    (word : next.csStatus = if σ.csStatus = composeCsStatus false s
      then composeCsStatus true peer else σ.csStatus) : Invariant next := by
  have located := inv.located p
  rw [current] at located
  have recovers : ∀ call, context ≠ .recover call := by
    rintro call rfl
    exact located
  have afterLocated : Located shift σ.seq context.afterPromote := by
    cases context <;> trivial
  obtain ⟨range, t, rfl⟩ : s.toNat < 2 ^ 62 ∧ ∃ t : Fin (2 ^ shift),
      peer = (processId t).setWidth 64 := by
    cases context <;> first | exact located | exact located.elim
  by_cases expected : σ.csStatus = composeCsStatus false s
  · rw [if_pos expected] at word
    have free : statusWord shift σ.csStatus = .free s := by
      rw [expected]
      exact statusWord_free range
    refine ⟨tree, seq ▸ inv.bound, Or.inr ⟨t, word⟩, ?_, ?_⟩
    · rw [word, seq, stance_update pcs]
      change Handover.Invariant _ (statusWord shift (takenWord t)) _ _
      rw [statusWord_taken small]
      refine inv.handover.promote (q := p) free (by rw [current]; rfl) ?_ ?_ ?_ ?_
      · simp [Pc.stance, current, Pc.choice, processOf_processId small]
      · cases context <;> rfl
      · cases context <;> rfl
      · intro attending
        simp only [Pc.stance, current] at attending
        cases context with
        | exit => exact nomatch attending
        | register call | recover call | abort => rfl
    · rw [seq]
      exact located_update pcs afterLocated fun q _ => inv.located q
  · rw [if_neg expected] at word
    refine inv.move tree word seq pcs (inv.resume context ?_ recovers ?_) afterLocated
    · rintro rfl
      rw [current]
      rfl
    · -- an aborting process waits at its own word only, and that one is gone
      rintro rfl key free
      rw [current]
      change (s == key) = false
      refine beq_eq_false_iff_ne.mpr ?_
      rintro rfl
      exact expected (inv.word.eq_compose small free).1

/-- The store to `seq`. -/
theorem Invariant.seqStore (inv : Invariant σ) {s : Word} (current : σ.pc p = .exitSeqStore s)
    (inRange : s < csstSMax) (tree : TreeInvariant next) (word : next.csStatus = σ.csStatus)
    (seq : next.seq = s + 1) (pcs : next.pc = Function.update σ.pc p (.exitCs s)) :
    Invariant next := by
  have located := inv.located p
  rw [current] at located
  have maximum : csstSMax.toNat = 2 ^ 62 - 1 := by decide
  have small : s.toNat < csstSMax.toNat := inRange
  rw [maximum] at small
  have value : (s + 1).toNat = s.toNat + 1 := by
    rw [BitVec.toNat_add, show (1 : Word).toNat = 1 from rfl]
    exact Nat.mod_eq_of_lt (by omega)
  have held : ((σ.pc p).stance shift).holds = true := by
    rw [current]
    rfl
  refine ⟨tree, ?_, word ▸ inv.word, ?_, ?_⟩
  · rw [seq, value]
    omega
  · rw [word, seq, stance_update pcs]
    refine inv.handover.publish (p := p) held ?_ rfl rfl
    rw [value, show s = σ.seq from located]
    omega
  · rw [seq]
    refine located_update pcs rfl fun q different => ?_
    -- only points past the lock look at `seq`, and `p` is the only one there
    have outside : (σ.pc q).holds = false := by
      cases other : (σ.pc q).holds with
      | false => rfl
      | true => exact absurd (inv.handover.holder_unique (p := q) (q := p) other held) different
    have before := inv.located q
    cases place : σ.pc q with
    | exitSeqStore | exitCs =>
        rw [place] at outside
        exact nomatch outside
    | update context | promoteRead context | promoteMin context | promoteCas context
    | check context =>
        rw [place] at before
        cases context <;> exact before
    | _ => trivial

/-- The store of the free word in `exit`. -/
theorem Invariant.csStore (inv : Invariant σ) {s : Word} (current : σ.pc p = .exitCs s)
    (tree : TreeInvariant next) (word : next.csStatus = composeCsStatus false (s + 1))
    (seq : next.seq = σ.seq) (pcs : next.pc = Function.update σ.pc p (.promoteRead .exit)) :
    Invariant next := by
  have located := inv.located p
  rw [current] at located
  have published : s + 1 = σ.seq := located
  refine ⟨tree, seq ▸ inv.bound, Or.inl ⟨s + 1, published ▸ inv.bound, word⟩, ?_, ?_⟩
  · rw [word, seq, stance_update pcs, statusWord_free (published ▸ inv.bound)]
    exact inv.handover.release (p := p) (by rw [current]; rfl)
      (by rw [published]) rfl rfl
  · rw [seq]
    exact located_update pcs trivial fun q _ => inv.located q

theorem ascend_cases (pos : Nat) : ascend pos = none ∨
    ∃ pos' again stage, ascend pos = some (.refresh pos' again stage) := by
  unfold ascend
  split
  · exact Or.inl rfl
  · exact Or.inr ⟨_, _, _, rfl⟩

/-- No step of `min_arr_update` leads to the store to the leaf. -/
theorem advance_cases (array : Nodes) (index : Nat) (rest : Update) :
    (array.advance index rest).2 = none ∨
      ∃ pos again stage, (array.advance index rest).2 = some (.refresh pos again stage) := by
  cases rest with
  | setLeaf state => exact ascend_cases index
  | refresh pos again stage =>
      cases stage with
      | node | left | right => exact Or.inr ⟨_, _, _, rfl⟩
      | swap =>
          cases again with
          | true => exact ascend_cases pos
          | false => exact Or.inr ⟨_, _, _, rfl⟩

/-- A step of a registered or leaving process through `min_arr_update`. -/
theorem Invariant.update (inv : Invariant σ) (small : shift ≤ 16) {context : Context}
    {rest : Update} (current : σ.pc p = .update context rest)
    (fresh : σ.toNodes.unwritten rest = true) : Invariant (advanceUpdate σ p context rest) := by
  have tree : TreeInvariant (advanceUpdate σ p context rest) := by
    cases rest with
    | setLeaf state => exact inv.tree.setLeaf small current
    | refresh pos again stage => exact inv.tree.refresh current fresh
  have located := inv.located p
  rw [current] at located
  have held : context = .exit → statusWord shift σ.csStatus = .taken p := by
    rintro rfl
    exact inv.handover.holder p (by rw [current]; rfl)
  have goes : Moves σ p (context.proceed (σ.toNodes.advance (leaf p) rest).2) ∧
      Located shift σ.seq (context.proceed (σ.toNodes.advance (leaf p) rest).2) := by
    rcases advance_cases σ.toNodes (leaf p) rest with done | ⟨pos, again, stage, goesOn⟩
    · rw [done]
      cases context with
      | register call | abort => exact ⟨.linger rfl rfl rfl fun _ => rfl, trivial⟩
      | recover call => exact located.elim
      | exit => exact ⟨.held (held rfl) rfl rfl rfl, trivial⟩
    · rw [goesOn]
      cases context with
      | register call | abort => exact ⟨.linger rfl rfl rfl fun _ => rfl, trivial⟩
      | recover call => exact located.elim
      | exit => exact ⟨.held (held rfl) rfl rfl rfl, trivial⟩
  exact inv.move tree rfl rfl rfl goes.1 goes.2

/-- A step to a point outside the updates that leaves the shared words alone. -/
theorem Invariant.pass (inv : Invariant σ) (nodes : next.nodes = σ.nodes)
    (version : next.version = σ.version) (word : next.csStatus = σ.csStatus)
    (seq : next.seq = σ.seq) (pcs : next.pc = Function.update σ.pc p pc)
    (moves : Moves σ p pc) (located : Located shift σ.seq pc)
    (outside : ∀ context pos again stage, pc ≠ .update context (.refresh pos again stage))
    (leafWord : pc.LeafWord p)
    (clean : ∀ pos, pc.cleanFrom pos → (σ.pc p).cleanFrom pos) : Invariant next :=
  inv.move (inv.tree.quiet pcs nodes version outside leafWord clean) word seq pcs moves located

/-- The same for a point that is no update either. -/
theorem Invariant.go (inv : Invariant σ) (moves : Moves σ p pc) (located : Located shift σ.seq pc)
    (outside : ∀ context pos again stage, pc ≠ .update context (.refresh pos again stage))
    (noLeaf : ∀ context state, pc ≠ .update context (.setLeaf state))
    (clean : ∀ pos, pc.cleanFrom pos → (σ.pc p).cleanFrom pos) : Invariant (σ.setPc p pc) :=
  inv.pass rfl rfl rfl rfl rfl moves located outside
    (fun context state at_ => absurd at_ (noLeaf context state)) clean

theorem leafWord_default (context : Context) (p : Fin (2 ^ shift)) :
    (Pc.update context (.setLeaf (defaultProcessState (processId p)))).LeafWord p := by
  intro context' state at_
  obtain rfl := Update.setLeaf.inj (Pc.update.inj at_).2
  exact ⟨getProcessId_default _, fun _ => getCounter_default _⟩

/-- The last load of a call, under the condition that no try fails. -/
theorem Invariant.check (inv : Invariant σ) (small : shift ≤ 16) {context : Context}
    (current : σ.pc p = .check context)
    (succeeds : context = .register .trylock → ownedBy σ.csStatus p = true) :
    Invariant (σ.setPc p (afterCheck context (ownedBy σ.csStatus p))) := by
  have located := inv.located p
  rw [current] at located
  have owned := inv.word.ownedBy_iff (p := p) small
  have enters (mine : ownedBy σ.csStatus p = true) : Invariant (σ.setPc p .critical) :=
    inv.go (.held (owned.mp mine) rfl rfl rfl) trivial nofun nofun nofun
  cases context with
  | register call =>
      have spins : ∀ call, Invariant (σ.setPc p (.finalRead call)) ∧
          Invariant (σ.setPc p (.spinRead call)) := fun call =>
        ⟨inv.go (.linger rfl rfl rfl fun _ => rfl) trivial nofun nofun nofun,
          inv.go (.linger rfl rfl rfl fun _ => rfl) trivial nofun nofun nofun⟩
      cases call with
      | trylock =>
          rw [afterCheck, if_pos (succeeds rfl)]
          exact enters (succeeds rfl)
      | lock | enter =>
          rw [afterCheck]
          split
          · exact (spins _).1
          · exact (spins _).2
          · simp
  | abort =>
      rw [afterCheck]
      split
      next mine => exact enters mine
      next notMine =>
        refine inv.go (.plain nofun (fun taken => absurd (owned.mpr taken) notMine) rfl rfl ?_)
          trivial nofun nofun (fun _ _ => by rw [current]; rfl)
        intro key _ waiting
        rw [current] at waiting
        exact nomatch waiting
  | recover call | exit => exact located.elim

/-- The load of `cs_status` in `promote`. -/
theorem Invariant.promoteRead (inv : Invariant σ) (small : shift ≤ 16) {context : Context}
    (current : σ.pc p = .promoteRead context) :
    Invariant (σ.setPc p (if (decomposeCsStatus σ.csStatus).b ≠ 0 then context.afterPromote
      else .promoteMin context (decomposeCsStatus σ.csStatus).s)) := by
  have located := inv.located p
  rw [current] at located
  have recovers : ∀ call, context ≠ .recover call := by
    rintro call rfl
    exact located
  split
  next taken =>
    refine inv.go (inv.resume context ?_ recovers ?_) ?_ ?_ ?_ ?_
    · rintro rfl
      rw [current]
      rfl
    · intro _ s free
      rw [statusWord, if_neg taken] at free
      cases free
    · cases context <;> trivial
    · cases context <;> nofun
    · cases context <;> nofun
    · intro pos clean
      rw [current]
      cases context <;> first | exact clean | rfl
  next open_ =>
    have free : statusWord shift σ.csStatus = .free (decomposeCsStatus σ.csStatus).s := by
      rw [statusWord, if_pos (not_not.mp open_)]
    refine inv.go (loadWord current free) ?_ nofun nofun ?_
    · have range := (inv.word.eq_compose small free).2
      cases context with
      | recover call => exact absurd rfl (recovers call)
      | register call | abort | exit => exact range
    · intro pos clean
      rw [current]
      exact clean

/-- The load of the root in `promote`. -/
theorem Invariant.promoteMin_step (inv : Invariant σ) (small : shift ≤ 16) {context : Context}
    {s : Word} (current : σ.pc p = .promoteMin context s) :
    Invariant (σ.setPc p (if getCounter (σ.nodes 1) = counterInf then
        (if context.flag then .promoteCas context s ((processId p).setWidth 64)
        else context.afterPromote)
      else .promoteCas context s ((getProcessId (σ.nodes 1)).setWidth 64))) := by
  obtain ⟨moves, located⟩ := inv.promoteMin small current
  refine inv.go moves located ?_ ?_ ?_
  · intro context' pos again stage
    cases context <;> split_ifs <;> nofun
  · intro context' state
    cases context <;> split_ifs <;> nofun
  · intro pos clean
    rw [current]
    revert clean
    cases context <;> split_ifs <;> first | exact id | exact fun _ => rfl

theorem Invariant.advance (inv : Invariant σ) (small : shift ≤ 16) {abortSignal : Bool}
    (taken : advanceProcess σ p abortSignal = some next)
    (met : undisturbed σ (.advance p abortSignal) = true) : Invariant next := by
  have located := inv.located p
  have owned := inv.word.ownedBy_iff (p := p) small
  have unowned (unattended : (σ.pc p).attends = false) : ¬ ownedBy σ.csStatus p = true :=
    fun mine => inv.handover.not_taken unattended (owned.mp mine)
  unfold advanceProcess at taken
  dsimp only [undisturbed] at met
  cases current : σ.pc p with
  | idle | critical => simp [current] at taken
  | recoverRead call =>
      have unattended : (σ.pc p).attends = false := by rw [current]; rfl
      simp only [current, if_neg (unowned unattended)] at taken
      exact Option.some.inj taken ▸
        inv.go (inv.handover.approach unattended rfl rfl) trivial nofun nofun
        fun _ _ => by rw [current]; trivial
  | tryRead call =>
      have unattended : (σ.pc p).attends = false := by rw [current]; rfl
      simp only [current, if_neg (unowned unattended)] at taken
      exact Option.some.inj taken ▸
        inv.go (inv.handover.approach unattended rfl rfl) trivial nofun nofun
        fun _ _ => by rw [current]; trivial
  | tokenRead call =>
      have unattended : (σ.pc p).attends = false := by rw [current]; rfl
      simp only [current] at taken
      exact Option.some.inj taken ▸
        inv.go (inv.handover.approach unattended rfl rfl) trivial nofun nofun
        fun _ _ => by rw [current]; trivial
  | tokenCas call token =>
      have unattended : (σ.pc p).attends = false := by rw [current]; rfl
      simp only [current] at taken
      refine Option.some.inj taken ▸
        inv.pass rfl rfl rfl rfl rfl (inv.handover.approach unattended rfl rfl)
        trivial nofun ?_ fun _ _ => by rw [current]; trivial
      intro context state at_
      obtain ⟨rfl, state⟩ := Pc.update.inj at_
      obtain rfl := Update.setLeaf.inj state
      exact ⟨getProcessId_compose _ _, nofun⟩
  | update context rest =>
      simp only [current] at taken met
      exact Option.some.inj taken ▸ inv.update small current met
  | promoteRead context =>
      simp only [current] at taken
      exact Option.some.inj taken ▸ inv.promoteRead small current
  | promoteMin context s =>
      simp only [current] at taken
      exact Option.some.inj taken ▸ inv.promoteMin_step small current
  | promoteCas context s peer =>
      simp only [current] at taken
      refine Option.some.inj taken ▸ inv.promoteCas small current ?_ rfl rfl rfl
      refine inv.tree.quiet rfl rfl rfl (by cases context <;> nofun) (by cases context <;> nofun) ?_
      intro pos clean
      rw [current]
      cases context <;> first | exact clean | rfl
  | check context =>
      simp only [current] at taken met
      refine Option.some.inj taken ▸ inv.check small current ?_
      rintro rfl
      exact met
  | spinRead call =>
      simp only [current] at taken
      refine Option.some.inj taken ▸ inv.go ?_ ?_ ?_ ?_ ?_
      · split <;> exact .linger rfl rfl rfl fun _ => rfl
      all_goals split <;> first | trivial | nofun
  | finalRead call =>
      simp only [current] at taken
      split at taken
      next mine =>
        exact Option.some.inj taken ▸ inv.go (.held (owned.mp mine) rfl rfl rfl) trivial nofun nofun
          nofun
      · exact Option.some.inj taken ▸ inv.pass rfl rfl rfl rfl rfl
          (.linger rfl rfl rfl fun _ => rfl) trivial nofun (leafWord_default _ p) nofun
  | exitSeqRead =>
      have word := inv.handover.holder p (by rw [current]; rfl)
      simp only [current] at taken
      exact Option.some.inj taken ▸ inv.go (.held word rfl rfl rfl) rfl nofun nofun
        fun _ _ => by rw [current]; trivial
  | exitSeqStore s =>
      simp only [current] at taken met
      refine Option.some.inj taken ▸ inv.seqStore current (of_decide_eq_true met) ?_ rfl rfl rfl
      exact inv.tree.quiet rfl rfl rfl nofun nofun fun _ _ => by rw [current]; trivial
  | exitCs s =>
      simp only [current] at taken
      refine Option.some.inj taken ▸ inv.csStore current ?_ rfl rfl rfl
      exact inv.tree.quiet rfl rfl rfl nofun nofun fun _ _ => by rw [current]; trivial

theorem Invariant.step (inv : Invariant σ) (small : shift ≤ 16) {action : Action shift}
    (taken : MinArray.step σ action = some next) (met : undisturbed σ action = true) :
    Invariant next := by
  cases action with
  | call p call =>
      simp only [MinArray.step, Option.ite_none_right_eq_some] at taken
      obtain ⟨idle, same⟩ := taken
      have unattended : (σ.pc p).attends = false := by rw [idle]; rfl
      refine Option.some.inj same ▸ inv.go (inv.handover.approach unattended ?_ ?_) ?_ ?_ ?_ ?_
      all_goals cases call
      all_goals first | rfl | trivial | exact fun _ _ => by rw [idle]; trivial | nofun
  | exit p =>
      simp only [MinArray.step, Option.ite_none_right_eq_some] at taken
      obtain ⟨inside, same⟩ := taken
      have word := inv.handover.holder p (by rw [inside]; rfl)
      exact Option.some.inj same ▸ inv.pass rfl rfl rfl rfl rfl (.held word rfl rfl rfl) trivial
        nofun (leafWord_default _ p) nofun
  | advance p abortSignal => exact inv.advance small taken met

end Steps

/-- `jj_spinlock_init` leaves no token in the tree. -/
theorem initial_not_holds (small : shift < 16) (prior : Nat → Word) {p : Fin (2 ^ shift)}
    {pos : Nat} (inTree : InTree shift pos) : ¬ Holds p ((lock shift prior).initial.nodes pos) := by
  obtain ⟨q, same⟩ := default_initMinArray small prior inTree.1 inTree.2
  exact fun holds => holds.1 ((congrArg getCounter same).trans (getCounter_default _))

theorem treeInvariant_initial (small : shift < 16) (prior : Nat → Word) :
    TreeInvariant (lock shift prior).initial where
  named := fun pos inTree => by
    obtain ⟨p, same⟩ := default_initMinArray small prior inTree.1 inTree.2
    exact ⟨p, (congrArg getProcessId same).trans (getProcessId_default _)⟩
  carriedNamed := nofun
  onPath := fun p pos inTree holds => absurd holds (initial_not_holds small prior inTree)
  carriedOnPath := fun _ _ _ late => by
    obtain ⟨_, _, _, _, _, _, at_, _⟩ := late
    cases at_
  ownPath := nofun
  loaded := nofun
  leafWord := nofun
  settled := fun p => by
    refine ⟨fun pos onPath _ => ⟨initial_not_holds small prior onPath.inTree, ?_⟩, nofun⟩
    rintro version ⟨_, _, _, _, _, _, at_, _⟩
    cases at_

theorem invariant_initial (small : shift < 16) (prior : Nat → Word) :
    Invariant (lock shift prior).initial where
  tree := treeInvariant_initial small prior
  bound := by simp [lock]
  word := Or.inl ⟨1, by decide, rfl⟩
  handover := by
    have free : statusWord shift (lock shift prior).initial.csStatus = .free 1 :=
      statusWord_free (by decide)
    rw [free]
    refine ⟨fun key same => ?_, nofun, nofun, nofun, nofun, nofun⟩
    rw [← Handover.Word.free.inj same]
    rfl
  located := fun _ => trivial

theorem Pc.asks_of_attends {pc : Pc} (attends : pc.attends = true) : pc.asks = true := by
  cases pc with
  | promoteRead context | promoteMin context | promoteCas context =>
      cases context <;> first | rfl | exact nomatch attends
  | idle => exact nomatch attends
  | _ => rfl

theorem invariant_of_reachable (small : shift < 16) {prior : Nat → Word} {σ : State shift}
    (reached : (lock shift prior).Reachable (fun σ action _ => undisturbed σ action = true) σ) :
    Invariant σ := by
  induction reached with
  | initial => exact invariant_initial small prior
  | step _ taken met inductionHypothesis => exact inductionHypothesis.step small.le taken met

/-- While no try fails, no swap of a refresh succeeds on a node written since it was loaded, and
`seq` stays in range, the recorded owner is a process that asks for the lock or has it. -/
theorem owner_asks (small : shift < 16) (prior : Nat → Word) {σ : State shift}
    (reached : (lock shift prior).Reachable (fun σ action _ => undisturbed σ action = true) σ)
    (p : Fin (2 ^ shift)) (recorded : ownedBy σ.csStatus p = true) : (σ.pc p).asks = true := by
  have inv := invariant_of_reachable small reached
  have taken := (inv.word.ownedBy_iff small.le).mp recorded
  exact Pc.asks_of_attends (inv.handover.recorded p taken)

def steps (p : Fin (2 ^ shift)) (count : Nat) (abortSignal : Bool) : List (Action shift) :=
  List.replicate count (.advance p abortSignal)

/-- Process 0 gets the lock, process 1 waits for it, and process 0 leaves. -/
def handedOver : List (Action 1) :=
  .call firstOfTwo .lock :: steps firstOfTwo 18 false ++
    .call secondOfTwo .enter :: steps secondOfTwo 14 false ++
    .exit firstOfTwo :: steps firstOfTwo 15 false

theorem owner_asks_handedOver :
    ownedBy ((lock 1 fun _ => 7).final handedOver).csStatus (1 : Fin (2 ^ 1)) = true ∧
      (((lock 1 fun _ => 7).final handedOver).pc 1).asks = true := by
  have recorded :
      ownedBy ((lock 1 fun _ => 7).final handedOver).csStatus (1 : Fin (2 ^ 1)) = true := by
    decide +kernel
  exact ⟨recorded, owner_asks (by decide) _ (Machine.reachable_final
    (fun σ action _ => undisturbed σ action) (fun _ _ _ => id) handedOver (by decide +kernel))
    1 recorded⟩

/-- A try that fails leaves its token in the tree: process 0 leaves and the lock is given to
process 1, which has returned. -/
theorem failed_try_gets_lock :
    let σ := (lock 1 fun _ => 7).final (.call 0 .enter :: steps 0 17 false ++ .call 1 .trylock ::
      steps 1 15 false ++ .exit 0 :: steps 0 15 false)
    ownedBy σ.csStatus (1 : Fin (2 ^ 1)) = true ∧ σ.pc 0 = .idle ∧ σ.pc 1 = .idle ∧
      (σ.pc 1).asks = false := by
  decide +kernel

/-- Without any try: process 0 aborts and is held up before its last swap at the root, with the
token of process 1 that has just registered. Process 1 gets the lock and leaves, the root is
back at the value process 0 has loaded, and the swap puts the token there for good. -/
example :
    let σ := (lock 1 fun _ => 7).final (.call 1 .enter :: steps 1 17 false ++ .call 0 .enter ::
      steps 0 14 false ++ steps 0 7 true ++ .exit 1 :: steps 1 14 false ++
      .call 1 .enter :: steps 1 4 false ++ steps 0 3 false ++ steps 1 13 false ++
      .exit 1 :: steps 1 14 false ++ steps 0 4 false)
    ownedBy σ.csStatus (1 : Fin (2 ^ 1)) = true ∧ σ.pc 1 = .idle := by
  decide +kernel

end Lupin.Lock.MinArray
