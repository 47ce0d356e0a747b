import Lupin.Lib.TopBit
import Lupin.Queue.CircularOps

/-!
# The circular queue under crashes

`circular_queue_enqueue` and `circular_queue_dequeue` in both builds. The calls hold the
queue's lock one at a time; a call may stop after any of its steps, and the next one then
takes the lock over. With `CACHELINE_GRANULAR` a store goes to the cached copy of its word
and becomes durable when the word is flushed, or earlier on its own; what a stopped call has
not made durable is lost. With `BYTE_GRANULAR` every store is durable at once.

A flush writes back whole lines. Only the words it is called for are written back here, and
any other word may be at any time.
-/

namespace Lupin.Queue.Circular

open Lupin.Transition Lupin.TopBit

abbrev Word := BitVec 64

/-- `RINGBUF_POS_PERSIST_BIT`. -/
def ringbufPosPersistBit : Word := 1#64 <<< 63

/-- The persistence granularity the driver is built for. -/
inductive Granularity where
  | byte
  | cacheline
deriving DecidableEq

/-- The words of `struct circular_queue`. -/
inductive Loc where
  | read
  | write
  | data (i : Nat)
deriving DecidableEq

abbrev Memory := Loc → Word

/-- The next memory step of the call that holds the lock. -/
inductive Pc where
  | idle
  /-- `circular_queue_load_position`. -/
  | loadWrite (op : Op)
  | loadRead (op : Op) (w : Word)
  | flushPos (op : Op) (w r : Word)
  /-- `q->data[w] = data`, and its flush. -/
  | storeData (data w nextW : Word)
  | flushData (data w nextW : Word)
  /-- `*data = q->data[r]`. -/
  | loadData (r : Word)
  /-- `circular_queue_store_position`: the store, with the bit set where it is made twice, its
  flush, the store without the bit and the flush of that. -/
  | storePos (op : Op) (pos : Loc) (val : Word) (outcome : Outcome)
  | flushMarked (op : Op) (pos : Loc) (val : Word) (outcome : Outcome)
  | storeClean (op : Op) (pos : Loc) (val : Word) (outcome : Outcome)
  | flushClean (op : Op) (pos : Loc) (outcome : Outcome)
  /-- The lock is given back. -/
  | unlock (op : Op) (outcome : Outcome)
deriving DecidableEq

/-- A call that has ended. -/
inductive Event where
  | returned (op : Op) (outcome : Outcome)
  | interrupted (op : Op)
deriving DecidableEq

structure State where
  cached : Memory
  durable : Memory
  pc : Pc
  history : List Event

inductive Action where
  | call (op : Op)
  | advance
  /-- The call that holds the lock stops for good. -/
  | interrupt
  /-- A word is written back on its own. -/
  | writeBack (loc : Loc)

/-- `store_uint64_release` and plain stores. -/
def State.store (granularity : Granularity) (σ : State) (loc : Loc) (val : Word) : State :=
  { σ with
    cached := Function.update σ.cached loc val
    durable :=
      match granularity with
      | .byte => Function.update σ.durable loc val
      | .cacheline => σ.durable }

/-- `shmem_output_cacheline` for a word. -/
def State.flush (σ : State) (loc : Loc) : State :=
  { σ with durable := Function.update σ.durable loc (σ.cached loc) }

/-- A position without the bit. -/
def position (w : Word) : Word := w &&& ~~~ringbufPosPersistBit

def marked (w : Word) : Bool := w &&& ringbufPosPersistBit != 0

/-- `(pos + 1) % CQUEUE_SIZE`. -/
def nextPosition (pos : Word) : Word := (pos + 1) % BitVec.ofNat 64 cqueueSize

/-- Behind `circular_queue_load_position`. -/
def afterLoad (op : Op) (w r : Word) : Pc :=
  match op with
  | .enqueue data =>
      if nextPosition w = r then .unlock op .failed else .storeData data w (nextPosition w)
  | .dequeue => if w = r then .unlock op .failed else .loadData r

/-- One memory step. -/
def advance (granularity : Granularity) (σ : State) : Option State :=
  match σ.pc with
  | .idle => none
  | .loadWrite op => some { σ with pc := .loadRead op (σ.cached .write) }
  | .loadRead op w =>
      let r := σ.cached .read
      some { σ with pc := if marked w || marked r then .flushPos op w r else afterLoad op w r }
  | .flushPos op w r =>
      some { (σ.flush .read).flush .write with pc := afterLoad op (position w) (position r) }
  | .storeData data w nextW =>
      some { σ.store granularity (.data w.toNat) data with pc := .flushData data w nextW }
  | .flushData data w nextW =>
      some { σ.flush (.data w.toNat) with pc := .storePos (.enqueue data) .write nextW .stored }
  | .loadData r =>
      some { σ with
        pc := .storePos .dequeue .read (nextPosition r) (.taken (σ.cached (.data r.toNat))) }
  | .storePos op pos val outcome =>
      match granularity with
      | .byte => some { σ.store granularity pos val with pc := .unlock op outcome }
      | .cacheline =>
          some { σ.store granularity pos (val ||| ringbufPosPersistBit) with
            pc := .flushMarked op pos val outcome }
  | .flushMarked op pos val outcome =>
      some { σ.flush pos with pc := .storeClean op pos val outcome }
  | .storeClean op pos val outcome =>
      some { σ.store granularity pos val with pc := .flushClean op pos outcome }
  | .flushClean op pos outcome => some { σ.flush pos with pc := .unlock op outcome }
  | .unlock op outcome =>
      some { σ with pc := .idle, history := σ.history ++ [.returned op outcome] }

/-- The call a step belongs to. -/
def Pc.op : Pc → Option Op
  | .idle => none
  | .loadWrite op | .loadRead op _ | .flushPos op _ _ => some op
  | .storeData data _ _ | .flushData data _ _ => some (.enqueue data)
  | .loadData _ => some .dequeue
  | .storePos op _ _ _ | .flushMarked op _ _ _ | .storeClean op _ _ _ | .flushClean op _ _
  | .unlock op _ => some op

def step (granularity : Granularity) (σ : State) : Action → Option State
  | .call op => if σ.pc = .idle then some { σ with pc := .loadWrite op } else none
  | .advance => advance granularity σ
  | .interrupt =>
      σ.pc.op.map fun op =>
        { σ with
          cached := σ.durable
          pc := .idle
          history := σ.history ++ [.interrupted op] }
  | .writeBack loc => some (σ.flush loc)

/-- The queue after `init_circular_queue`. -/
def queue (granularity : Granularity) : Machine State Action where
  initial := ⟨fun _ => 0, fun _ => 0, .idle, []⟩
  step := step granularity

/-! ## Histories of the bounded queue -/

/-- The history is one of the queue, which then holds these words: calls that returned have its
outcome, and an interrupted call is applied or left out. -/
inductive Fifo : List Event → List Word → Prop where
  | start : Fifo [] []
  | returned {history q} (op : Op) (before : Fifo history q) :
      Fifo (history ++ [.returned op (op.apply q).1]) (op.apply q).2
  | applied {history q} (op : Op) (before : Fifo history q) :
      Fifo (history ++ [.interrupted op]) (op.apply q).2
  | leftOut {history q} (op : Op) (before : Fifo history q) :
      Fifo (history ++ [.interrupted op]) q

/-! ## Positions -/

section Positions

variable {w : Word}

theorem marked_eq_false_iff : marked w = false ↔ w &&& topBit = 0 := bne_eq_false_iff_eq

theorem position_of_not_marked (clear : marked w = false) : position w = w :=
  rest_of_clear (marked_eq_false_iff.mp clear)

theorem position_of_lt (small : w.toNat < cqueueSize) : position w = w :=
  rest_of_clear (clear_of_lt (by unfold cqueueSize at small; omega))

theorem position_marked (small : w.toNat < cqueueSize) :
    position (w ||| ringbufPosPersistBit) = w :=
  (rest_or w).trans (position_of_lt small)

theorem nextPosition_toNat (bound : w.toNat < cqueueSize) :
    (nextPosition w).toNat = Ring.advance cqueueSize w.toNat := by
  unfold cqueueSize at bound
  have one : BitVec.toNat (1 : Word) = 1 := rfl
  have size : BitVec.toNat (BitVec.ofNat 64 cqueueSize) = 128 := rfl
  rw [nextPosition, Ring.advance, BitVec.toNat_umod, BitVec.toNat_add, one, size,
    Nat.mod_eq_of_lt (by omega : w.toNat + 1 < 2 ^ 64), cqueueSize]

end Positions

/-! ## What memory holds -/

/-- The ring in memory, whether or not its positions are marked. -/
def Memory.ring (m : Memory) : CircularQueue where
  data i := m (.data i)
  read := (position (m .read)).toNat
  write := (position (m .write)).toNat

def Holds (m : Memory) (q : List Word) : Prop := m.ring.Represents q

/-- Storing this position makes the call's effect, marked or not. -/
structure Commits (m : Memory) (op : Op) (pos : Loc) (val : Word) (outcome : Outcome)
    (q : List Word) : Prop where
  outcome_eq : outcome = (op.apply q).1
  small : val.toNat < cqueueSize
  holds : ∀ word, position word = val → Holds (Function.update m pos word) (op.apply q).2

section Holds

variable {m : Memory} {q : List Word} {data : Word}

theorem holds_zero : Holds (fun _ => 0) [] := ⟨by decide, by decide, by decide⟩

/-- The rings of memories with one word stored. -/
theorem ring_update_data (m : Memory) (i : Nat) (data : Word) :
    Memory.ring (Function.update m (.data i) data) =
      { m.ring with data := Function.update m.ring.data i data } := by
  have cells : (fun k => Function.update m (.data i) data (.data k)) =
      Function.update (fun k => m (.data k)) i data := by
    funext k
    by_cases here : k = i
    · rw [here, Function.update_self, Function.update_self]
    · rw [Function.update_of_ne here, Function.update_of_ne fun same => here (Loc.data.inj same)]
  rw [Memory.ring, cells]
  simp [Memory.ring]

theorem ring_update_write (m : Memory) (word : Word) :
    Memory.ring (Function.update m .write word) =
      { m.ring with write := (position word).toNat } := by
  simp [Memory.ring]

theorem ring_update_read (m : Memory) (word : Word) :
    Memory.ring (Function.update m .read word) =
      { m.ring with read := (position word).toNat } := by
  simp [Memory.ring]

/-- The cell behind the last one can be stored to. -/
theorem Holds.store (holds : Holds m q) :
    Holds (Function.update m (.data (position (m .write)).toNat) data) q := by
  rw [Holds, ring_update_data]
  exact CircularQueue.Represents.store holds data

theorem Holds.commits_enqueue (holds : Holds m q)
    (room : nextPosition (position (m .write)) ≠ position (m .read))
    (stored : m (.data (position (m .write)).toNat) = data) :
    Commits m (.enqueue data) .write (nextPosition (position (m .write))) .stored q := by
  have next := nextPosition_toNat holds.write
  have notFull : Ring.advance cqueueSize m.ring.write ≠ m.ring.read := fun same =>
    room (BitVec.eq_of_toNat_eq (next.trans same))
  obtain ⟨applied, pushed⟩ := holds.push notFull
  rw [show m.ring.data m.ring.write = data from stored] at applied pushed
  refine ⟨by rw [applied], next ▸ pushed.write, fun word isNext => ?_⟩
  rw [applied, Holds, ring_update_write, isNext, next]
  exact pushed

theorem Holds.commits_dequeue (holds : Holds m q)
    (some : position (m .write) ≠ position (m .read)) :
    Commits m .dequeue .read (nextPosition (position (m .read)))
      (.taken (m (.data (position (m .read)).toNat))) q := by
  have next := nextPosition_toNat holds.read
  obtain ⟨rest, rfl, popped⟩ := holds.pop fun same => some (BitVec.eq_of_toNat_eq same)
  refine ⟨rfl, next ▸ popped.read, fun word isNext => ?_⟩
  rw [Holds, ring_update_read, isNext, next]
  exact popped

theorem Holds.apply_full (holds : Holds m q)
    (full : nextPosition (position (m .write)) = position (m .read)) (data : Word) :
    (Op.enqueue data).apply q = (.failed, q) := by
  have next := nextPosition_toNat holds.write
  rw [full] at next
  exact CircularQueue.Represents.apply_full holds next.symm data

theorem Holds.apply_empty (holds : Holds m q) (empty : position (m .write) = position (m .read)) :
    Op.dequeue.apply q = (.failed, q) :=
  CircularQueue.Represents.apply_empty holds (congrArg BitVec.toNat empty)

theorem Commits.update {op : Op} {pos : Loc} {val : Word} {outcome : Outcome}
    (commits : Commits m op pos val outcome q) (word : Word) :
    Commits (Function.update m pos word) op pos val outcome q :=
  ⟨commits.outcome_eq, commits.small, fun other isVal => by
    rw [Function.update_idem]
    exact commits.holds other isVal⟩

/-- The position has been stored. -/
theorem Commits.done {op : Op} {pos : Loc} {val : Word} {outcome : Outcome}
    (commits : Commits m op pos val outcome q) (stored : position (m pos) = val) :
    Holds m (op.apply q).2 := by
  have holds := commits.holds (m pos) stored
  rwa [Function.update_eq_self] at holds

end Holds

/-! ## The invariant -/

/-- Both copies are the same and hold the queue. -/
structure Stable (σ : State) (q : List Word) : Prop where
  same : σ.cached = σ.durable
  holds : Holds σ.durable q

/-- The copies differ in this word at most. -/
def Agrees (σ : State) (loc : Loc) : Prop :=
  ∀ other, other ≠ loc → σ.cached other = σ.durable other

/-- What the copies hold at each step of a call that found the queue as `q`. -/
def Consistent (σ : State) (q : List Word) : Prop :=
  match σ.pc with
  | .idle | .loadWrite _ => Stable σ q
  | .loadRead _ w => Stable σ q ∧ w = σ.durable .write
  | .flushPos _ w r => Stable σ q ∧ w = σ.durable .write ∧ r = σ.durable .read
  | .storeData _ w nextW =>
      Stable σ q ∧ w = position (σ.durable .write) ∧ nextW = nextPosition w ∧
        nextW ≠ position (σ.durable .read)
  | .flushData data w nextW =>
      Agrees σ (.data w.toNat) ∧ σ.cached (.data w.toNat) = data ∧ Holds σ.durable q ∧
        w = position (σ.durable .write) ∧ nextW = nextPosition w ∧
        nextW ≠ position (σ.durable .read)
  | .loadData r =>
      Stable σ q ∧ r = position (σ.durable .read) ∧ position (σ.durable .write) ≠ r
  | .storePos op pos val outcome => Stable σ q ∧ Commits σ.durable op pos val outcome q
  | .flushMarked op pos val outcome =>
      Agrees σ pos ∧ position (σ.cached pos) = val ∧ Commits σ.durable op pos val outcome q ∧
        (Holds σ.durable q ∨ position (σ.durable pos) = val)
  | .storeClean op pos val outcome =>
      σ.cached = σ.durable ∧ position (σ.durable pos) = val ∧
        Commits σ.durable op pos val outcome q
  | .flushClean op pos outcome =>
      ∃ val, Agrees σ pos ∧ position (σ.cached pos) = val ∧ position (σ.durable pos) = val ∧
        Commits σ.durable op pos val outcome q
  | .unlock op outcome => Stable σ (op.apply q).2 ∧ outcome = (op.apply q).1

section Steps

variable {granularity : Granularity} {σ : State} {q : List Word} {loc : Loc}

theorem flush_eq_self (same : σ.cached loc = σ.durable loc) : σ.flush loc = σ := by
  rw [State.flush, same, Function.update_eq_self]

/-- A flush of the word in which the copies differ makes them the same. -/
theorem Agrees.flush (agrees : Agrees σ loc) : (σ.flush loc).cached = (σ.flush loc).durable := by
  funext other
  by_cases here : other = loc
  · rw [here]
    dsimp only [State.flush]
    rw [Function.update_self]
  · exact (agrees other here).trans (Function.update_of_ne here ..).symm

/-- A store makes the copies differ in its word at most. -/
theorem agrees_store (same : σ.cached = σ.durable) (val : Word) :
    Agrees (σ.store granularity loc val) loc := by
  intro other different
  have cached : (σ.store granularity loc val).cached other = σ.cached other :=
    Function.update_of_ne different ..
  cases granularity with
  | byte => rw [cached, same]; exact (Function.update_of_ne different ..).symm
  | cacheline => rw [cached, same]; rfl

/-- The durable copy after a store: the store is in it or not. -/
theorem store_durable (granularity : Granularity) (σ : State) (loc : Loc) (val : Word) :
    (σ.store granularity loc val).durable = Function.update σ.durable loc val ∨
      (σ.store granularity loc val).durable = σ.durable := by
  cases granularity with
  | byte => exact .inl rfl
  | cacheline => exact .inr rfl

/-- A word that is written back on its own changes nothing that matters. -/
theorem Consistent.writeBack (consistent : Consistent σ q) (loc : Loc) :
    Consistent (σ.flush loc) q := by
  have stable : ∀ {q'}, Stable σ q' → σ.flush loc = σ :=
    fun isStable => flush_eq_self (congrFun isStable.same loc)
  have pcSame : (σ.flush loc).pc = σ.pc := rfl
  unfold Consistent at consistent ⊢
  rw [pcSame]
  cases pc : σ.pc with
  | idle | loadWrite op =>
      rw [pc] at consistent
      rw [stable consistent]
      exact consistent
  | loadRead op w | flushPos op w r | storeData data w nextW | loadData r
  | storePos op pos val outcome | unlock op outcome =>
      rw [pc] at consistent
      rw [stable consistent.1]
      exact consistent
  | storeClean op pos val outcome =>
      rw [pc] at consistent
      rw [flush_eq_self (congrFun consistent.1 loc)]
      exact consistent
  | flushData data w nextW =>
      rw [pc] at consistent
      dsimp only at consistent ⊢
      obtain ⟨agrees, stored, holds, rfl, isNext, room⟩ := consistent
      by_cases here : loc = .data (position (σ.durable .write)).toNat
      · subst here
        have kept : ∀ other : Loc, (∀ i, other ≠ .data i) →
            (σ.flush (.data (position (σ.durable .write)).toNat)).durable other =
              σ.durable other :=
          fun other notData => Function.update_of_ne (notData _) ..
        refine ⟨fun other _ => congrFun agrees.flush other, stored, ?_, ?_, isNext, ?_⟩
        · exact holds.store
        · rw [kept .write nofun]
        · rw [kept .read nofun]
          exact room
      · rw [flush_eq_self (agrees loc here)]
        exact ⟨agrees, stored, holds, rfl, isNext, room⟩
  | flushMarked op pos val outcome =>
      rw [pc] at consistent
      dsimp only at consistent ⊢
      obtain ⟨agrees, stored, commits, durable⟩ := consistent
      by_cases here : loc = pos
      · subst here
        refine ⟨fun other _ => congrFun agrees.flush other, stored, commits.update _, .inr ?_⟩
        rw [← congrFun agrees.flush loc]
        exact stored
      · rw [flush_eq_self (agrees loc here)]
        exact ⟨agrees, stored, commits, durable⟩
  | flushClean op pos outcome =>
      rw [pc] at consistent
      dsimp only at consistent ⊢
      obtain ⟨val, agrees, stored, durable, commits⟩ := consistent
      by_cases here : loc = pos
      · subst here
        refine ⟨val, fun other _ => congrFun agrees.flush other, stored, ?_, commits.update _⟩
        rw [← congrFun agrees.flush loc]
        exact stored
      · rw [flush_eq_self (agrees loc here)]
        exact ⟨val, agrees, stored, durable, commits⟩

/-- A call that stops has been applied, or is left out, in the durable copy. -/
theorem Consistent.interrupt (consistent : Consistent σ q) {op : Op} (isOp : σ.pc.op = some op) :
    Holds σ.durable q ∨ Holds σ.durable (op.apply q).2 := by
  unfold Consistent at consistent
  cases pc : σ.pc with
  | idle =>
      rw [pc] at isOp
      exact absurd isOp nofun
  | loadWrite op =>
      rw [pc] at consistent
      exact .inl consistent.holds
  | loadRead op w | flushPos op w r | storeData data w nextW | loadData r
  | storePos op pos val outcome =>
      rw [pc] at consistent
      exact .inl consistent.1.holds
  | flushData data w nextW =>
      rw [pc] at consistent
      exact .inl consistent.2.2.1
  | flushMarked op pos val outcome =>
      rw [pc] at consistent isOp
      obtain rfl := Option.some.inj isOp
      obtain ⟨_, _, commits, before | after⟩ := consistent
      · exact .inl before
      · exact .inr (commits.done after)
  | storeClean op pos val outcome =>
      rw [pc] at consistent isOp
      obtain rfl := Option.some.inj isOp
      exact .inr (consistent.2.2.done consistent.2.1)
  | flushClean op pos outcome =>
      rw [pc] at consistent isOp
      obtain rfl := Option.some.inj isOp
      obtain ⟨val, _, _, durable, commits⟩ := consistent
      exact .inr (commits.done durable)
  | unlock op outcome =>
      rw [pc] at consistent isOp
      obtain rfl := Option.some.inj isOp
      exact .inr consistent.1.holds

/-- Behind the loads of the positions. -/
theorem consistent_afterLoad (stable : Stable σ q) (op : Op) :
    Consistent { σ with
      pc := afterLoad op (position (σ.durable .write)) (position (σ.durable .read)) } q := by
  have stays : ∀ pc, Stable { σ with pc := pc } q := fun _ => ⟨stable.same, stable.holds⟩
  unfold afterLoad
  cases op with
  | enqueue data =>
      dsimp only
      split
      · rename_i full
        have failed := stable.holds.apply_full full data
        unfold Consistent
        dsimp only
        rw [failed]
        exact ⟨stays _, rfl⟩
      · rename_i room
        exact ⟨stays _, rfl, rfl, room⟩
  | dequeue =>
      dsimp only
      split
      · rename_i empty
        have failed := stable.holds.apply_empty empty
        unfold Consistent
        dsimp only
        rw [failed]
        exact ⟨stays _, rfl⟩
      · rename_i some
        exact ⟨stays _, rfl, some⟩

/-- A step within a call keeps what the copies hold; the last step returns the outcome. -/
theorem Consistent.advance (consistent : Consistent σ q) {next : State}
    (transition : advance granularity σ = some next) :
    next.history = σ.history ∧ Consistent next q ∨
      ∃ op, next.history = σ.history ++ [.returned op (op.apply q).1] ∧
        Consistent next (op.apply q).2 := by
  unfold Circular.advance at transition
  unfold Consistent at consistent
  cases pc : σ.pc with
  | idle =>
      rw [pc] at transition
      exact absurd transition nofun
  | loadWrite op =>
      rw [pc] at transition consistent
      obtain rfl := Option.some.inj transition
      refine .inl ⟨rfl, ⟨consistent.same, consistent.holds⟩, ?_⟩
      exact congrFun consistent.same _
  | loadRead op w =>
      rw [pc] at transition consistent
      obtain rfl := Option.some.inj transition
      obtain ⟨stable, rfl⟩ := consistent
      refine .inl ⟨rfl, ?_⟩
      split
      · exact ⟨⟨stable.same, stable.holds⟩, rfl, congrFun stable.same _⟩
      · rename_i unmarked
        rw [Bool.not_eq_true, Bool.or_eq_false_iff] at unmarked
        have load := consistent_afterLoad stable op
        rw [congrFun stable.same] at unmarked ⊢
        rwa [position_of_not_marked unmarked.1, position_of_not_marked unmarked.2] at load
  | flushPos op w r =>
      rw [pc] at transition consistent
      obtain rfl := Option.some.inj transition
      obtain ⟨stable, rfl, rfl⟩ := consistent
      rw [flush_eq_self (congrFun stable.same .read), flush_eq_self (congrFun stable.same .write)]
      exact .inl ⟨rfl, consistent_afterLoad stable op⟩
  | storeData data w nextW =>
      rw [pc] at transition consistent
      obtain rfl := Option.some.inj transition
      obtain ⟨stable, rfl, isNext, room⟩ := consistent
      refine .inl ⟨rfl, ?_⟩
      have kept : ∀ pos : Loc, (∀ i, pos ≠ .data i) →
          (σ.store granularity (.data (position (σ.durable .write)).toNat) data).durable pos =
            σ.durable pos := by
        intro pos notData
        rcases store_durable granularity σ (.data (position (σ.durable .write)).toNat) data with
          stored | unstored
        · rw [stored]
          exact Function.update_of_ne (notData _) ..
        · rw [unstored]
      refine ⟨agrees_store stable.same data, Function.update_self .., ?_, ?_, isNext, ?_⟩
      · rcases store_durable granularity σ (.data (position (σ.durable .write)).toNat) data with
          stored | unstored
        · dsimp only
          rw [stored]
          exact stable.holds.store
        · dsimp only
          rw [unstored]
          exact stable.holds
      · dsimp only
        rw [kept .write nofun]
      · dsimp only
        rw [kept .read nofun]
        exact room
  | flushData data w nextW =>
      rw [pc] at transition consistent
      obtain rfl := Option.some.inj transition
      obtain ⟨agrees, rfl, holds, rfl, rfl, room⟩ := consistent
      have same := agrees.flush
      have kept : ∀ pos : Loc, (∀ i, pos ≠ .data i) →
          (σ.flush (.data (position (σ.durable .write)).toNat)).durable pos = σ.durable pos :=
        fun pos notData => Function.update_of_ne (notData _) ..
      have after : Holds (σ.flush (.data (position (σ.durable .write)).toNat)).durable q :=
        holds.store
      have stored := after.commits_enqueue (by rw [kept .write nofun, kept .read nofun]; exact room)
        rfl
      rw [kept .write nofun, ← congrFun same] at stored
      exact .inl ⟨rfl, ⟨same, after⟩, stored⟩
  | loadData r =>
      rw [pc] at transition consistent
      obtain rfl := Option.some.inj transition
      obtain ⟨stable, rfl, some⟩ := consistent
      refine .inl ⟨rfl, ⟨stable.same, stable.holds⟩, ?_⟩
      rw [congrFun stable.same]
      exact stable.holds.commits_dequeue some
  | storePos op pos val outcome =>
      rw [pc] at transition consistent
      obtain ⟨stable, commits⟩ := consistent
      cases granularity with
      | byte =>
          obtain rfl := Option.some.inj transition
          refine .inl ⟨rfl, ⟨?_, commits.holds val (position_of_lt commits.small)⟩,
            commits.outcome_eq⟩
          dsimp only [State.store]
          rw [stable.same]
      | cacheline =>
          obtain rfl := Option.some.inj transition
          have agrees : Agrees (σ.store .cacheline pos (val ||| ringbufPosPersistBit)) pos :=
            agrees_store stable.same _
          refine .inl ⟨rfl, agrees, ?_, commits, .inl stable.holds⟩
          dsimp only [State.store]
          rw [Function.update_self]
          exact position_marked commits.small
  | flushMarked op pos val outcome =>
      rw [pc] at transition consistent
      obtain rfl := Option.some.inj transition
      obtain ⟨agrees, stored, commits, _⟩ := consistent
      refine .inl ⟨rfl, agrees.flush, ?_, commits.update _⟩
      dsimp only
      rw [← congrFun agrees.flush]
      exact stored
  | storeClean op pos val outcome =>
      rw [pc] at transition consistent
      obtain rfl := Option.some.inj transition
      obtain ⟨same, stored, commits⟩ := consistent
      have clean := position_of_lt commits.small
      refine .inl ⟨rfl, val, agrees_store same val, ?_, ?_, ?_⟩
      · dsimp only [State.store]
        rw [Function.update_self, clean]
      · rcases store_durable granularity σ pos val with isStored | unstored
        · dsimp only
          rw [isStored, Function.update_self, clean]
        · dsimp only
          rw [unstored, stored]
      · rcases store_durable granularity σ pos val with isStored | unstored
        · dsimp only
          rw [isStored]
          exact commits.update val
        · dsimp only
          rw [unstored]
          exact commits
  | flushClean op pos outcome =>
      rw [pc] at transition consistent
      obtain rfl := Option.some.inj transition
      obtain ⟨val, agrees, stored, _, commits⟩ := consistent
      refine .inl ⟨rfl, ⟨agrees.flush, (commits.update _).done ?_⟩, commits.outcome_eq⟩
      rw [Function.update_self]
      exact stored
  | unlock op outcome =>
      rw [pc] at transition consistent
      obtain rfl := Option.some.inj transition
      obtain ⟨stable, rfl⟩ := consistent
      exact .inr ⟨op, rfl, stable.same, stable.holds⟩

theorem fifo_step {action : Action} {next : State} (fifo : Fifo σ.history q)
    (consistent : Consistent σ q) (transition : step granularity σ action = some next) :
    ∃ q', Fifo next.history q' ∧ Consistent next q' := by
  cases action with
  | call op =>
      simp only [step] at transition
      split at transition
      · rename_i idle
        obtain rfl := Option.some.inj transition
        unfold Consistent at consistent
        rw [idle] at consistent
        exact ⟨q, fifo, consistent.same, consistent.holds⟩
      · exact absurd transition nofun
  | advance =>
      rcases consistent.advance transition with ⟨same, after⟩ | ⟨op, returned, after⟩
      · exact ⟨q, same ▸ fifo, after⟩
      · refine ⟨_, ?_, after⟩
        rw [returned]
        exact .returned op fifo
  | interrupt =>
      obtain ⟨op, isOp, rfl⟩ := Option.map_eq_some_iff.mp transition
      rcases consistent.interrupt isOp with before | after
      · exact ⟨q, .leftOut op fifo, rfl, before⟩
      · exact ⟨_, .applied op fifo, rfl, after⟩
  | writeBack loc =>
      obtain rfl := Option.some.inj transition
      exact ⟨q, fifo, consistent.writeBack loc⟩

end Steps

/-- In both builds, and wherever calls are interrupted, the outcomes of the calls that returned
are those of a bounded queue in which every interrupted call was applied or left out. -/
theorem crash_atomic_fifo (granularity : Granularity) {σ : State}
    (reached : (queue granularity).Reachable (fun _ _ _ => True) σ) : ∃ q, Fifo σ.history q := by
  have initially : Consistent (queue granularity).initial [] :=
    ⟨rfl, holds_zero⟩
  have holds : ∃ q, Fifo σ.history q ∧ Consistent σ q :=
    @Machine.Reachable.invariant _ _ (queue granularity) _
      (fun σ => ∃ q, Fifo σ.history q ∧ Consistent σ q) ⟨[], .start, initially⟩
      (fun ⟨_, fifo, consistent⟩ transition _ => fifo_step fifo consistent transition) _ reached
  obtain ⟨q, fifo, _⟩ := holds
  exact ⟨q, fifo⟩

/-- An enqueue stops with its marked position written back, and a dequeue finds the word. -/
def markedThenTaken : List Action :=
  .call (.enqueue 5) :: List.replicate 5 .advance ++ .writeBack .write :: .interrupt ::
    .call .dequeue :: List.replicate 9 .advance

theorem crash_atomic_fifo_markedThenTaken :
    ((queue .cacheline).final markedThenTaken).history =
        [.interrupted (.enqueue 5), .returned .dequeue (.taken 5)] ∧
      ∃ q, Fifo ((queue .cacheline).final markedThenTaken).history q :=
  ⟨by decide +kernel, crash_atomic_fifo .cacheline
    (Machine.reachable_final (fun _ _ _ => true) (fun _ _ _ _ => trivial) markedThenTaken
      (by decide +kernel))⟩

end Lupin.Queue.Circular
