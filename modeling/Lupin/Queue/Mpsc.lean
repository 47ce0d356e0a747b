import Lupin.Lib.Holders
import Lupin.Lib.TicketRing
import Lupin.Lib.Transition

/-!
# The queue with many producers and one consumer

`mpscq_enqueue` and `mpscq_dequeue` of `mpsc_queue.c`, with every atomic operation one step.
Any number of producers call `mpscq_enqueue` at the same time; one consumer calls
`mpscq_dequeue`. A producer reserves room by counting itself in `count`, draws a ticket from
`head` and stores its data into the cell of the ticket. The consumer takes the data out of the
cell at `tail` and gives the room back last.

The write-backs of the `CACHELINE_GRANULAR` build are left out.
-/

namespace Lupin.Queue.Mpsc

open Lupin.Holders Lupin.TicketRing Lupin.Transition

abbrev Word := BitVec 64

/-- `MPSC_QUEUE_SIZE`. -/
def mpscQueueSize : Nat := 32

/-- The -1 of a cell without data, which `mpscq_dequeue` also returns for an empty queue. -/
def empty : Word := -1

/-- Where a producer is. -/
inductive Pc where
  | idle
  /-- `atomic64_fetch_add(1, &q->count)`. -/
  | reserve (data : Word)
  /-- `atomic64_fetch_sub(1, &q->count)` of a call that found the queue full. -/
  | rollback (data : Word)
  /-- `atomic64_fetch_add(1, &q->head)`. -/
  | ticket (data : Word)
  /-- `atomic64_xchg` into the buffer. -/
  | store (data : Word) (head : Nat)
deriving DecidableEq

/-- Where the consumer is. -/
inductive ConsumerPc where
  | idle
  /-- `atomic64_xchg` with -1. -/
  | exchange
  /-- The step of `tail`. -/
  | bump (ret : Word)
  /-- `atomic64_fetch_sub(1, &q->count)`. -/
  | release (ret : Word)
deriving DecidableEq

/-- A call that has returned. -/
inductive Call (Producer : Type) where
  | enqueue (producer : Producer) (data : Word) (ret : Bool)
  | dequeue (ret : Word)
deriving DecidableEq

/-- `struct mpscq`, where everyone is, the data in the order of their tickets, and the calls
that have returned, the latest first. -/
structure State (Producer : Type) where
  buffer : Nat → Word
  count : Int
  head : Nat
  tail : Nat
  pc : Producer → Pc
  consumer : ConsumerPc
  issued : List Word
  returned : List (Call Producer)

inductive Action (Producer : Type) where
  | enqueue (producer : Producer) (data : Word)
  | produce (producer : Producer)
  | dequeue
  | consume

/-- `head % MPSC_QUEUE_SIZE`, where `head` is signed: from 2^63 on the index is negative, and
there is no such cell. -/
def cellOf (head : Nat) : Option Nat := if head < 2 ^ 63 then some (head % mpscQueueSize) else none

/-- `++q->tail`, back to 0 at the end of the buffer. -/
def nextTail (tail : Nat) : Nat := if tail + 1 ≥ mpscQueueSize then 0 else tail + 1

variable {Producer : Type} [DecidableEq Producer]

/-- The next atomic operation of `mpscq_enqueue`. -/
def produce (s : State Producer) (p : Producer) : Option (State Producer) :=
  match s.pc p with
  | .idle => none
  | .reserve data =>
      some
        { s with
          count := s.count + 1
          pc := Function.update s.pc p
            (if s.count ≥ mpscQueueSize then .rollback data else .ticket data) }
  | .rollback data =>
      some
        { s with
          count := s.count - 1
          pc := Function.update s.pc p .idle
          returned := .enqueue p data false :: s.returned }
  | .ticket data =>
      some
        { s with
          head := s.head + 1
          pc := Function.update s.pc p (.store data s.head)
          issued := s.issued ++ [data] }
  | .store data head =>
      (cellOf head).map fun cell =>
        { s with
          buffer := Function.update s.buffer cell data
          pc := Function.update s.pc p .idle
          returned := .enqueue p data true :: s.returned }

/-- The next operation of `mpscq_dequeue`. -/
def consume (s : State Producer) : Option (State Producer) :=
  match s.consumer with
  | .idle => none
  | .exchange =>
      let ret := s.buffer s.tail
      let s := { s with buffer := Function.update s.buffer s.tail empty }
      if ret = empty then
        some { s with consumer := .idle, returned := .dequeue ret :: s.returned }
      else some { s with consumer := .bump ret }
  | .bump ret => some { s with tail := nextTail s.tail, consumer := .release ret }
  | .release ret =>
      some
        { s with
          count := s.count - 1
          consumer := .idle
          returned := .dequeue ret :: s.returned }

/-- One step: a call begins, or goes on. -/
def step (s : State Producer) : Action Producer → Option (State Producer)
  | .enqueue p data =>
      if s.pc p = .idle then some { s with pc := Function.update s.pc p (.reserve data) } else none
  | .produce p => produce s p
  | .dequeue => if s.consumer = .idle then some { s with consumer := .exchange } else none
  | .consume => consume s

/-- `init_mpscq`. -/
def initMpscq : State Producer where
  buffer := fun _ => empty
  count := 0
  head := 0
  tail := 0
  pc := fun _ => .idle
  consumer := .idle
  issued := []
  returned := []

variable (Producer) in
/-- Runs of any calls in any interleaving. -/
def machine : Machine (State Producer) (Action Producer) where
  initial := initMpscq
  step := step

/-! ## What the calls have done -/

/-- The data a call has handed to the consumer. -/
def Call.received : Call Producer → Option Word
  | .enqueue .. => none
  | .dequeue ret => if ret = empty then none else some ret

/-- The data of a call that has been accepted. -/
def Call.accepted : Call Producer → Option Word
  | .enqueue _ data true => some data
  | _ => none

/-- The data the consumer has taken out and not returned yet. -/
def ConsumerPc.inHand : ConsumerPc → Option Word
  | .bump ret | .release ret => some ret
  | _ => none

/-- The room a producer holds without a ticket. -/
inductive Room where
  | reserved
  | refused
deriving DecidableEq

def Pc.room : Pc → Option Room
  | .ticket _ => some .reserved
  | .rollback _ => some .refused
  | _ => none

/-- The data a producer is about to store. -/
def Pc.storing : Pc → Option Word
  | .store data _ => some data
  | _ => none

namespace State

/-- The data the consumer's calls have returned, in order. -/
def received (s : State Producer) : List Word := s.returned.reverse.filterMap Call.received

/-- The data taken out of the buffer, in order. -/
def taken (s : State Producer) : List Word := s.received ++ s.consumer.inHand.toList

/-- The data of the calls that returned true, in order. -/
def accepted (s : State Producer) : List Word := s.returned.reverse.filterMap Call.accepted

/-- The data with a ticket that are still to be taken out. -/
def queued (s : State Producer) : List Word := s.issued.drop s.taken.length

/-- How many cells `tail` has moved on. -/
def moves (s : State Producer) : Nat :=
  match s.consumer with
  | .release _ => s.received.length + 1
  | _ => s.received.length

end State

theorem nextTail_mod (n : Nat) : nextTail (n % mpscQueueSize) = (n + 1) % mpscQueueSize := by
  unfold nextTail mpscQueueSize
  split <;> omega

/-! ## Tickets -/

section Tickets

variable {buffer : Nat → Word} {issued : List Word} {taken k : Nat} {pc : Producer → Pc}
variable {p : Producer} {data : Word} {now : Pc}

/-- Some producer is still to store for ticket `k`. -/
def Pending (pc : Producer → Pc) (k : Nat) : Prop := ∃ p data, pc p = .store data k

/-- The buffer agrees with the tickets, and every ticket that is not stored is one producer's. -/
structure Ticketed (buffer : Nat → Word) (issued : List Word) (taken : Nat) (pc : Producer → Pc) :
    Prop where
  ring : Agrees mpscQueueSize empty buffer issued taken (Pending pc)
  own : ∀ p data k, pc p = .store data k → issued[k]? = some data
  alone : ∀ p q data data' k, pc p = .store data k → pc q = .store data' k → p = q

theorem store_of_update {q : Producer} (other : q ≠ p ∨ now.storing = none)
    (stores : Function.update pc p now q = .store data k) : pc q = .store data k := by
  by_cases here : q = p
  · subst here
    rw [Function.update_self] at stores
    rw [stores] at other
    exact absurd other (by simp [Pc.storing])
  · rwa [Function.update_of_ne here] at stores

theorem store_update {q : Producer} (before : (pc p).storing = none)
    (stores : pc q = .store data k) : Function.update pc p now q = .store data k := by
  have other : q ≠ p := by
    rintro rfl
    rw [stores] at before
    exact absurd before (by simp [Pc.storing])
  rwa [Function.update_of_ne other]

/-- A producer goes on without a ticket. -/
theorem Ticketed.move (ticketed : Ticketed buffer issued taken pc) (before : (pc p).storing = none)
    (after : now.storing = none) : Ticketed buffer issued taken (Function.update pc p now) where
  ring := ticketed.ring.congr fun _ =>
    ⟨fun ⟨q, data, stores⟩ => ⟨q, data, store_of_update (.inr after) stores⟩,
      fun ⟨q, data, stores⟩ => ⟨q, data, store_update before stores⟩⟩
  own q data k stores := ticketed.own q data k (store_of_update (.inr after) stores)
  alone q q' data data' k stores stores' :=
    ticketed.alone q q' data data' k (store_of_update (.inr after) stores)
      (store_of_update (.inr after) stores')

omit [DecidableEq Producer] in
theorem Ticketed.lt_length (ticketed : Ticketed buffer issued taken pc)
    (stores : pc p = .store data k) : k < issued.length :=
  (List.getElem?_eq_some_iff.mp (ticketed.own p data k stores)).1

/-- A producer draws a ticket. -/
theorem Ticketed.draw (ticketed : Ticketed buffer issued taken pc) (before : (pc p).storing = none)
    (room : issued.length < taken + mpscQueueSize) :
    Ticketed buffer (issued ++ [data]) taken
      (Function.update pc p (.store data issued.length)) := by
  have mine : ∀ data' k, Function.update pc p (.store data issued.length) p = .store data' k →
      data = data' ∧ issued.length = k := fun data' k stores => by
    rwa [Function.update_self, Pc.store.injEq] at stores
  refine ⟨(ticketed.ring.issue data room).congr fun k => ?_, ?_, ?_⟩
  · constructor
    · rintro ⟨q, data', stores⟩
      by_cases here : q = p
      · subst here
        exact .inr (mine _ _ stores).2.symm
      · exact .inl ⟨q, data', store_of_update (.inl here) stores⟩
    · rintro (⟨q, data', stores⟩ | rfl)
      · exact ⟨q, data', store_update before stores⟩
      · exact ⟨p, data, Function.update_self _ _ _⟩
  · intro q data' k stores
    by_cases here : q = p
    · subst here
      obtain ⟨rfl, rfl⟩ := mine _ _ stores
      simp
    · have old := store_of_update (.inl here) stores
      rw [List.getElem?_append_left (ticketed.lt_length old)]
      exact ticketed.own q data' k old
  · -- a new ticket is behind all others
    intro q q' data' data'' k stores stores'
    by_cases here : q = p <;> by_cases there : q' = p
    · rw [here, there]
    · subst here
      have := ticketed.lt_length (store_of_update (.inl there) stores')
      rw [(mine _ _ stores).2] at this
      omega
    · subst there
      have := ticketed.lt_length (store_of_update (.inl here) stores)
      rw [(mine _ _ stores').2] at this
      omega
    · exact ticketed.alone q q' data' data'' k (store_of_update (.inl here) stores)
        (store_of_update (.inl there) stores')

/-- A producer stores for its ticket. -/
theorem Ticketed.store (ticketed : Ticketed buffer issued taken pc)
    (stores : pc p = .store data k) :
    Ticketed (Function.update buffer (k % mpscQueueSize) data) issued taken
      (Function.update pc p .idle) := by
  have after : Pc.idle.storing = none := rfl
  refine ⟨(ticketed.ring.store ⟨p, data, stores⟩ (ticketed.own p data k stores)).congr fun i => ?_,
    ?_, ?_⟩
  · constructor
    · rintro ⟨q, data', stores'⟩
      refine ⟨⟨q, data', store_of_update (.inr after) stores'⟩, ?_⟩
      rintro rfl
      have same := ticketed.alone q p data' data i (store_of_update (.inr after) stores') stores
      rw [same, Function.update_self] at stores'
      exact absurd stores' (by simp)
    · rintro ⟨⟨q, data', stores'⟩, different⟩
      have other : q ≠ p := by
        rintro rfl
        rw [stores, Pc.store.injEq] at stores'
        exact different stores'.2.symm
      exact ⟨q, data', by rwa [Function.update_of_ne other]⟩
  · exact fun q data' i stores' => ticketed.own q data' i (store_of_update (.inr after) stores')
  · exact fun q q' data' data'' i stores' stores'' => ticketed.alone q q' data' data'' i
      (store_of_update (.inr after) stores') (store_of_update (.inr after) stores'')

omit [DecidableEq Producer] in
/-- The consumer takes what is in the cell of the oldest ticket. -/
theorem Ticketed.take (ticketed : Ticketed buffer issued taken pc)
    (found : buffer (taken % mpscQueueSize) ≠ empty) :
    Ticketed (Function.update buffer (taken % mpscQueueSize) empty) issued (taken + 1) pc :=
  ⟨ticketed.ring.take (by decide) found, ticketed.own, ticketed.alone⟩

end Tickets

/-! ## Counting -/

section Counts

variable [Fintype Producer] {counted : Int} {issued received : Nat} {pc : Producer → Pc}
variable {p : Producer} {now : Pc}

/-- The producers that hold room of a kind. -/
def rooms (pc : Producer → Pc) (room : Room) : Int := count (Pc.room ∘ pc) room

/-- `count` is the room that is not free: that of the tickets and that of producers without one.
The room for tickets is never more than there are cells. -/
structure Counted (counted : Int) (issued received : Nat) (pc : Producer → Pc) : Prop where
  count_eq : counted = issued - received + rooms pc .reserved + rooms pc .refused
  room : rooms pc .reserved + issued ≤ received + mpscQueueSize

theorem rooms_update (p : Producer) (now : Pc) (room : Room) :
    rooms (Function.update pc p now) room =
      rooms pc room - share (pc p).room room + share now.room room := by
  rw [rooms, Function.comp_update, count_update]
  rfl

omit [DecidableEq Producer] in
theorem rooms_nonneg (room : Room) : 0 ≤ rooms pc room := count_nonneg

/-- A producer counts itself in or out without a ticket. -/
theorem Counted.move (isCounted : Counted counted issued received pc) {counted' : Int}
    (counts : counted' - counted = share now.room .reserved + share now.room .refused -
      share (pc p).room .reserved - share (pc p).room .refused)
    (fits : now.room ≠ some .reserved ∨ counted < mpscQueueSize) :
    Counted counted' issued received (Function.update pc p now) := by
  have total := isCounted.count_eq
  have room := isCounted.room
  have before := share_nonneg (pc p).room Room.reserved
  refine ⟨?_, ?_⟩ <;> rw [rooms_update]
  · rw [rooms_update]
    omega
  · rcases fits with unreserved | few
    · have : share now.room Room.reserved = 0 := if_neg unreserved
      omega
    · have : share now.room Room.reserved ≤ 1 := by
        unfold share
        split <;> decide
      have := @rooms_nonneg _ _ pc .refused
      omega

/-- A producer uses its room for a ticket. -/
theorem Counted.draw (isCounted : Counted counted issued received pc)
    (before : (pc p).room = some .reserved) (after : now.room = none) :
    Counted counted (issued + 1) received (Function.update pc p now) ∧
      issued < received + mpscQueueSize := by
  have total := isCounted.count_eq
  have room := isCounted.room
  have positive : 0 < rooms pc .reserved := count_pos before
  refine ⟨⟨?_, ?_⟩, by omega⟩ <;> simp only [rooms_update, before, after, share_some, share_none,
    reduceCtorEq, if_true, if_false] <;> push_cast <;> omega

omit [DecidableEq Producer] in
/-- The consumer gives room back. -/
theorem Counted.release (isCounted : Counted counted issued received pc) :
    Counted (counted - 1) issued (received + 1) pc := by
  have total := isCounted.count_eq
  have room := isCounted.room
  constructor <;> push_cast <;> omega

/-- The data with a ticket are those that were accepted and those about to be stored. -/
def Accounted (issued accepted : List Word) (pc : Producer → Pc) : Prop :=
  ∀ value, (issued.count value : Int) = accepted.count value + count (Pc.storing ∘ pc) value

variable {values accepted : List Word} {data : Word} {k : Nat}

theorem Accounted.move (accounted : Accounted values accepted pc) (before : (pc p).storing = none)
    (after : now.storing = none) : Accounted values accepted (Function.update pc p now) := by
  intro value
  rw [Function.comp_update, after, ← before, ← Function.comp_apply (f := Pc.storing) (g := pc),
    Function.update_eq_self]
  exact accounted value

theorem Accounted.draw (accounted : Accounted values accepted pc) (before : (pc p).storing = none) :
    Accounted (values ++ [data]) accepted (Function.update pc p (.store data k)) := by
  intro value
  rw [Function.comp_update, count_update, Function.comp_apply, before, List.count_append,
    List.count_singleton, Nat.cast_add, accounted value, share_none, Pc.storing, share_some]
  by_cases same : data = value <;> simp [same, add_assoc]

theorem Accounted.store (accounted : Accounted values accepted pc)
    (stores : pc p = .store data k) :
    Accounted values (accepted ++ [data]) (Function.update pc p .idle) := by
  intro value
  have after : Pc.idle.storing = none := rfl
  rw [Function.comp_update, count_update, Function.comp_apply, stores, List.count_append,
    List.count_singleton, Nat.cast_add, accounted value, Pc.storing, after, share_some, share_none]
  by_cases same : data = value
  · simp only [same, if_true, beq_self_eq_true, Nat.cast_one]
    omega
  · simp [same]

end Counts

/-! ## The invariant of runs -/

variable [Fintype Producer]

structure Consistent (s : State Producer) : Prop where
  ticketed : Ticketed s.buffer s.issued s.taken.length s.pc
  in_order : s.taken <+: s.issued
  head_eq : s.head = s.issued.length
  tail_eq : s.tail = s.moves % mpscQueueSize
  in_hand : ∀ ret, s.consumer.inHand = some ret → ret ≠ empty
  counted : Counted s.count s.issued.length s.received.length s.pc
  accounted : Accounted s.issued s.accepted s.pc

variable {s s' : State Producer} {p : Producer} {data : Word} {k : Nat} {now : Pc}

omit [DecidableEq Producer] [Fintype Producer] in
/-- What a call that returns adds to a list made from the calls. -/
theorem filterMap_returned (made : Call Producer → Option Word) (call : Call Producer)
    (returned : List (Call Producer)) :
    (call :: returned).reverse.filterMap made =
      returned.reverse.filterMap made ++ (made call).toList := by
  rw [List.reverse_cons, List.filterMap_append]
  cases found : made call <;> simp [found]

omit [DecidableEq Producer] in
theorem consistent_initial : Consistent (initMpscq : State Producer) where
  ticketed :=
    ⟨(agrees_initial _ _).congr fun k => by simp [Pending, initMpscq], by simp [initMpscq],
    by simp [initMpscq]⟩
  in_order := List.prefix_rfl
  head_eq := rfl
  tail_eq := rfl
  in_hand ret isHeld := by simp [initMpscq, ConsumerPc.inHand] at isHeld
  counted := by
    constructor <;> simp [rooms, count, initMpscq, Pc.room, State.received]
  accounted value := by
    simp [count, initMpscq, Pc.storing, State.accepted]

/-- A producer goes on without a ticket. -/
theorem Consistent.move (consistent : Consistent s) {counted : Int}
    {returned : List (Call Producer)} (before : (s.pc p).storing = none)
    (after : now.storing = none)
    (receives : returned.reverse.filterMap Call.received = s.received)
    (accepts : returned.reverse.filterMap Call.accepted = s.accepted)
    (isCounted : Counted counted s.issued.length s.received.length (Function.update s.pc p now)) :
    Consistent { s with count := counted, pc := Function.update s.pc p now, returned } := by
  have received : State.received
      { s with count := counted, pc := Function.update s.pc p now, returned } = s.received :=
    receives
  have taken : State.taken
      { s with count := counted, pc := Function.update s.pc p now, returned } = s.taken := by
    rw [State.taken, received, State.taken]
  refine ⟨?_, ?_, consistent.head_eq, ?_, consistent.in_hand, ?_, ?_⟩
  · rw [taken]
    exact consistent.ticketed.move before after
  · rw [taken]
    exact consistent.in_order
  · rw [State.moves, received]
    exact consistent.tail_eq
  · rw [received]
    exact isCounted
  · rw [State.accepted, accepts]
    exact consistent.accounted.move before after

theorem Consistent.enqueue (consistent : Consistent s) (idle : s.pc p = .idle) :
    Consistent { s with pc := Function.update s.pc p (.reserve data) } := by
  refine consistent.move (by rw [idle]; rfl) rfl rfl rfl
    (consistent.counted.move ?_ (.inl (by simp [Pc.room])))
  rw [idle]
  simp [Pc.room]

/-- What a producer does next keeps the queue consistent. -/
theorem Consistent.produce (consistent : Consistent s) (goes : Mpsc.produce s p = some s') :
    Consistent s' := by
  cases here : s.pc p with
  | idle =>
      rw [Mpsc.produce, here] at goes
      exact absurd goes (by simp)
  | reserve data =>
      rw [Mpsc.produce, here] at goes
      obtain rfl := Option.some.inj goes
      by_cases full : s.count ≥ mpscQueueSize
      · simp only [full, if_true]
        exact consistent.move (by rw [here]; rfl) rfl rfl rfl
          (consistent.counted.move (by rw [here]; simp [Pc.room]) (.inl (by simp [Pc.room])))
      · simp only [full, if_false]
        exact consistent.move (by rw [here]; rfl) rfl rfl rfl
          (consistent.counted.move (by rw [here]; simp [Pc.room]) (.inr (by omega)))
  | rollback data =>
      rw [Mpsc.produce, here] at goes
      obtain rfl := Option.some.inj goes
      refine consistent.move (by rw [here]; rfl) rfl ?_ ?_
        (consistent.counted.move (by rw [here]; simp [Pc.room]) (.inl (by simp [Pc.room])))
      · rw [filterMap_returned]
        exact List.append_nil _
      · rw [filterMap_returned]
        exact List.append_nil _
  | ticket data =>
      rw [Mpsc.produce, here] at goes
      obtain rfl := Option.some.inj goes
      have before : (s.pc p).storing = none := by rw [here]; rfl
      obtain ⟨counted, room⟩ := consistent.counted.draw
        (show (s.pc p).room = some .reserved by rw [here]; rfl)
        (show (Pc.store data s.issued.length).room = none from rfl)
      rw [consistent.head_eq]
      refine ⟨consistent.ticketed.draw before ?_,
        consistent.in_order.trans (List.prefix_append _ _),
        ?_, consistent.tail_eq, consistent.in_hand, ?_, consistent.accounted.draw before⟩
      · have : s.received.length ≤ s.taken.length := by simp [State.taken]
        exact lt_of_lt_of_le room (Nat.add_le_add_right this _)
      · simp
      · rw [List.length_append]
        exact counted
  | store data k =>
      simp only [Mpsc.produce, here, Option.map_eq_some_iff] at goes
      obtain ⟨cell, isCell, rfl⟩ := goes
      unfold cellOf at isCell
      split at isCell
      · obtain rfl := Option.some.inj isCell
        have received : State.received
            { s with
              buffer := Function.update s.buffer (k % mpscQueueSize) data
              pc := Function.update s.pc p .idle
              returned := .enqueue p data true :: s.returned } = s.received := by
          rw [State.received, filterMap_returned]
          exact List.append_nil _
        refine ⟨?_, ?_, consistent.head_eq, ?_, consistent.in_hand, ?_, ?_⟩
        · rw [State.taken, received]
          exact consistent.ticketed.store here
        · rw [State.taken, received]
          exact consistent.in_order
        · rw [State.moves, received]
          exact consistent.tail_eq
        · rw [received]
          exact consistent.counted.move (by rw [here]; simp [Pc.room]) (.inl (by simp [Pc.room]))
        · rw [State.accepted, filterMap_returned]
          exact consistent.accounted.store here
      · exact absurd isCell (by simp)

omit [DecidableEq Producer] [Fintype Producer] in
theorem taken_of_inHand (nothing : s.consumer.inHand = none) : s.taken = s.received := by
  rw [State.taken, nothing]
  exact List.append_nil _

omit [DecidableEq Producer] in
/-- With nothing in hand, `tail` is the cell of the oldest ticket that is outstanding. -/
theorem Consistent.tail_oldest (consistent : Consistent s) (nothing : s.consumer.inHand = none) :
    s.tail = s.taken.length % mpscQueueSize := by
  rw [consistent.tail_eq, taken_of_inHand nothing, State.moves]
  cases here : s.consumer <;> simp_all [ConsumerPc.inHand]

omit [DecidableEq Producer] in
/-- What the consumer finds is the oldest of the queued data. -/
theorem Consistent.found (consistent : Consistent s) (nothing : s.consumer.inHand = none)
    (found : s.buffer s.tail ≠ empty) : s.issued[s.taken.length]? = some (s.buffer s.tail) := by
  rw [consistent.tail_oldest nothing] at found ⊢
  exact (consistent.ticketed.ring.oldest (by decide) found).2

theorem concat_prefix {α : Type*} {l l' : List α} {x : α} (isPrefix : l <+: l')
    (next : l'[l.length]? = some x) : l ++ [x] <+: l' := by
  obtain ⟨rest, rfl⟩ := isPrefix
  rw [List.getElem?_append_right le_rfl, Nat.sub_self] at next
  cases rest with
  | nil => simp at next
  | cons y rest =>
      obtain rfl : y = x := by simpa using next
      exact ⟨rest, by simp⟩

omit [DecidableEq Producer] in
theorem Consistent.dequeue (consistent : Consistent s) (idle : s.consumer = .idle) :
    Consistent { s with consumer := .exchange } := by
  have inHand : s.consumer.inHand = ConsumerPc.exchange.inHand := by rw [idle]; rfl
  have taken : State.taken { s with consumer := .exchange } = s.taken := by
    rw [State.taken, ← inHand]
    rfl
  refine ⟨?_, ?_, consistent.head_eq, ?_, ?_, consistent.counted, consistent.accounted⟩
  · rw [taken]
    exact consistent.ticketed
  · rw [taken]
    exact consistent.in_order
  · have before := consistent.tail_eq
    rw [State.moves, idle] at before
    exact before
  · intro ret isHeld
    simp [ConsumerPc.inHand] at isHeld

omit [DecidableEq Producer] in
/-- The consumer finds nothing. -/
theorem Consistent.exchange_empty (consistent : Consistent s) (here : s.consumer = .exchange)
    (nothing : s.buffer s.tail = empty) :
    Consistent
      { s with
        buffer := Function.update s.buffer s.tail empty
        consumer := .idle
        returned := .dequeue (s.buffer s.tail) :: s.returned } := by
  have received : State.received
      { s with
        buffer := Function.update s.buffer s.tail empty
        consumer := .idle
        returned := .dequeue (s.buffer s.tail) :: s.returned } = s.received := by
    rw [State.received, filterMap_returned, Call.received, if_pos nothing]
    exact List.append_nil _
  have inHand : s.consumer.inHand = ConsumerPc.idle.inHand := by rw [here]; rfl
  refine ⟨?_, ?_, consistent.head_eq, ?_, ?_, ?_, ?_⟩
  · rw [State.taken, received, ← inHand, ← nothing, Function.update_eq_self]
    exact consistent.ticketed
  · rw [State.taken, received, ← inHand]
    exact consistent.in_order
  · have before := consistent.tail_eq
    rw [State.moves, here] at before
    rw [State.moves, received]
    exact before
  · intro ret isHeld
    simp [ConsumerPc.inHand] at isHeld
  · rw [received]
    exact consistent.counted
  · rw [State.accepted, filterMap_returned]
    exact (List.append_nil s.accepted).symm ▸ consistent.accounted

omit [DecidableEq Producer] in
/-- The consumer takes the oldest of the queued data. -/
theorem Consistent.exchange_found (consistent : Consistent s) (here : s.consumer = .exchange)
    (found : s.buffer s.tail ≠ empty) :
    Consistent
      { s with
        buffer := Function.update s.buffer s.tail empty
        consumer := .bump (s.buffer s.tail) } := by
  have nothing : s.consumer.inHand = none := by rw [here]; rfl
  have oldest := consistent.tail_oldest nothing
  have longer : State.taken
      { s with
        buffer := Function.update s.buffer s.tail empty
        consumer := .bump (s.buffer s.tail) } = s.taken ++ [s.buffer s.tail] := by
    rw [taken_of_inHand nothing]
    rfl
  refine ⟨?_, ?_, consistent.head_eq, ?_, ?_, consistent.counted, consistent.accounted⟩
  · rw [longer, List.length_append, oldest]
    exact consistent.ticketed.take (by rwa [← oldest])
  · rw [longer]
    exact concat_prefix consistent.in_order (consistent.found nothing found)
  · rw [taken_of_inHand nothing] at oldest
    exact oldest
  · intro ret isHeld
    obtain rfl := Option.some.inj isHeld
    exact found

omit [DecidableEq Producer] in
theorem Consistent.bump (consistent : Consistent s) {ret : Word} (here : s.consumer = .bump ret) :
    Consistent { s with tail := nextTail s.tail, consumer := .release ret } := by
  have inHand : s.consumer.inHand = (ConsumerPc.release ret).inHand := by rw [here]; rfl
  have taken : State.taken { s with tail := nextTail s.tail, consumer := .release ret } =
      s.taken := by
    rw [State.taken, ← inHand]
    rfl
  refine ⟨?_, ?_, consistent.head_eq, ?_, ?_, consistent.counted, consistent.accounted⟩
  · rw [taken]
    exact consistent.ticketed
  · rw [taken]
    exact consistent.in_order
  · have before := consistent.tail_eq
    rw [State.moves, here] at before
    rw [before, nextTail_mod]
    rfl
  · rw [← inHand]
    exact consistent.in_hand

omit [DecidableEq Producer] in
/-- The consumer returns what it has taken. -/
theorem Consistent.release (consistent : Consistent s) {ret : Word}
    (here : s.consumer = .release ret) :
    Consistent
      { s with
        count := s.count - 1
        consumer := .idle
        returned := .dequeue ret :: s.returned } := by
  have inHand : s.consumer.inHand = some ret := by rw [here]; rfl
  have received : State.received
      { s with
        count := s.count - 1
        consumer := .idle
        returned := .dequeue ret :: s.returned } = s.received ++ [ret] := by
    rw [State.received, filterMap_returned, Call.received, if_neg (consistent.in_hand ret inHand)]
    rfl
  have taken : State.taken
      { s with
        count := s.count - 1
        consumer := .idle
        returned := .dequeue ret :: s.returned } = s.taken := by
    rw [State.taken, received, State.taken, inHand]
    exact List.append_nil _
  refine ⟨?_, ?_, consistent.head_eq, ?_, ?_, ?_, ?_⟩
  · rw [taken]
    exact consistent.ticketed
  · rw [taken]
    exact consistent.in_order
  · have before := consistent.tail_eq
    rw [State.moves, here] at before
    rw [State.moves, received, List.length_append]
    exact before
  · intro ret isHeld
    simp [ConsumerPc.inHand] at isHeld
  · rw [received, List.length_append]
    exact consistent.counted.release
  · rw [State.accepted, filterMap_returned]
    exact (List.append_nil s.accepted).symm ▸ consistent.accounted

theorem Consistent.step (consistent : Consistent s) {action : Action Producer}
    (goes : Mpsc.step s action = some s') : Consistent s' := by
  cases action with
  | enqueue p data =>
      rw [Mpsc.step] at goes
      split at goes
      · rename_i idle
        obtain rfl := Option.some.inj goes
        exact consistent.enqueue idle
      · exact absurd goes (by simp)
  | produce p => exact consistent.produce goes
  | dequeue =>
      rw [Mpsc.step] at goes
      split at goes
      · rename_i idle
        obtain rfl := Option.some.inj goes
        exact consistent.dequeue idle
      · exact absurd goes (by simp)
  | consume =>
      rw [Mpsc.step] at goes
      cases here : s.consumer with
      | idle =>
          rw [Mpsc.consume, here] at goes
          exact absurd goes (by simp)
      | exchange =>
          simp only [Mpsc.consume, here] at goes
          split at goes
          · rename_i nothing
            obtain rfl := Option.some.inj goes
            exact consistent.exchange_empty here nothing
          · rename_i found
            obtain rfl := Option.some.inj goes
            exact consistent.exchange_found here found
      | bump ret =>
          rw [Mpsc.consume, here] at goes
          obtain rfl := Option.some.inj goes
          exact consistent.bump here
      | release ret =>
          rw [Mpsc.consume, here] at goes
          obtain rfl := Option.some.inj goes
          exact consistent.release here

theorem consistent_of_reachable {guard : Guard (State Producer) (Action Producer)}
    (reached : (machine Producer).Reachable guard s) : Consistent s :=
  reached.invariant consistent_initial fun consistent goes _ => consistent.step goes

/-! ## The queue over whole runs -/

/-- The consumer's calls return data in the order of the tickets, every call that returned true
has one ticket, and what it stored is in its cell until it is taken: nothing is lost, doubled,
made up or overwritten. There are never more than `MPSC_QUEUE_SIZE` tickets outstanding, and
`mpscq_count` is at least their number and at most that of the cells and the producers. -/
theorem mpscq_fifo (reached : (machine Producer).Reachable (fun _ _ _ => True) s) :
    s.received <+: s.issued ∧
      (∀ value, (s.issued.count value : Int) =
        s.accepted.count value + count (Pc.storing ∘ s.pc) value) ∧
      s.queued.length ≤ mpscQueueSize ∧
      (∀ k value, s.taken.length ≤ k → s.issued[k]? = some value →
        (∀ p, s.pc p ≠ .store value k) → s.buffer (k % mpscQueueSize) = value) ∧
      s.queued.length ≤ s.count ∧ s.count ≤ mpscQueueSize + Fintype.card Producer := by
  have consistent := consistent_of_reachable reached
  have ring := consistent.ticketed.ring
  have few := ring.few
  have longer : s.received.length ≤ s.taken.length := by simp [State.taken]
  have outstanding : s.queued.length = s.issued.length - s.taken.length := List.length_drop
  have total := consistent.counted.count_eq
  have room := consistent.counted.room
  have taken := ring.taken_le
  have refused := @rooms_nonneg _ _ s.pc .refused
  have reserved := @rooms_nonneg _ _ s.pc .reserved
  refine ⟨(List.prefix_append _ _).trans consistent.in_order, consistent.accounted, by omega, ?_,
    by omega, ?_⟩
  · intro k value notTaken isIssued stored
    refine ring.stored k value notTaken isIssued ?_
    rintro ⟨p, data, stores⟩
    have same := consistent.ticketed.own p data k stores
    rw [isIssued] at same
    exact stored p (Option.some.inj same ▸ stores)
  · have most : rooms s.pc .refused ≤ Fintype.card Producer := by
      rw [rooms, count_eq_card]
      exact_mod_cast Finset.card_le_univ _
    omega

/-- Two producers draw their tickets in the other order than they began, and the consumer comes
in between. -/
def interleaved : List (Action Bool) :=
  [.enqueue false 7#64, .enqueue true 8#64, .produce false, .produce true, .produce true,
    .produce false, .produce true, .dequeue, .consume, .consume, .consume, .produce false]

theorem mpscq_fifo_interleaved :
    ((machine Bool).final interleaved).received = [8#64] ∧
      ((machine Bool).final interleaved).issued = [8#64, 7#64] ∧
      ((machine Bool).final interleaved).received <+:
        ((machine Bool).final interleaved).issued :=
  ⟨by decide, by decide,
    (mpscq_fifo (Machine.reachable_final (fun _ _ _ => true) (fun _ _ _ _ => trivial) interleaved
      (by decide))).1⟩

omit [DecidableEq Producer] [Fintype Producer] in
/-- A call of a producer that returns has taken nothing. -/
theorem taken_of_enqueue {ret : Bool} (sameConsumer : s'.consumer = s.consumer)
    (returned : s'.returned = .enqueue p data ret :: s.returned) : s'.taken = s.taken := by
  rw [State.taken, State.taken, sameConsumer, State.received, returned, filterMap_returned]
  exact congrArg (· ++ _) (List.append_nil _)

omit [Fintype Producer] in
/-- A step of a producer adds a ticket at most, and takes nothing. -/
theorem produce_effect (goes : Mpsc.produce s p = some s') :
    s.issued <+: s'.issued ∧ s'.taken = s.taken := by
  cases here : s.pc p with
  | idle =>
      rw [Mpsc.produce, here] at goes
      exact absurd goes (by simp)
  | reserve data =>
      rw [Mpsc.produce, here] at goes
      obtain rfl := Option.some.inj goes
      exact ⟨List.prefix_rfl, rfl⟩
  | rollback data =>
      rw [Mpsc.produce, here] at goes
      obtain rfl := Option.some.inj goes
      exact ⟨List.prefix_rfl, taken_of_enqueue rfl rfl⟩
  | ticket data =>
      rw [Mpsc.produce, here] at goes
      obtain rfl := Option.some.inj goes
      exact ⟨List.prefix_append _ _, rfl⟩
  | store data k =>
      simp only [Mpsc.produce, here, Option.map_eq_some_iff] at goes
      obtain ⟨cell, _, rfl⟩ := goes
      exact ⟨List.prefix_rfl, taken_of_enqueue rfl rfl⟩

omit [DecidableEq Producer] in
/-- A step of the consumer takes the oldest of the queued data at most, and not -1. -/
theorem Consistent.consume_effect (consistent : Consistent s) (goes : Mpsc.consume s = some s') :
    s'.issued = s.issued ∧ (s'.taken = s.taken ∨ ∃ value, value ≠ empty ∧
      s.issued[s.taken.length]? = some value ∧ s'.taken = s.taken ++ [value]) := by
  cases here : s.consumer with
  | idle =>
      rw [Mpsc.consume, here] at goes
      exact absurd goes (by simp)
  | exchange =>
      have nothing : s.consumer.inHand = none := by rw [here]; rfl
      simp only [Mpsc.consume, here] at goes
      split at goes
      · rename_i isEmpty
        obtain rfl := Option.some.inj goes
        refine ⟨rfl, .inl ?_⟩
        rw [State.taken, State.received, filterMap_returned, Call.received, if_pos isEmpty,
          taken_of_inHand nothing]
        simp [ConsumerPc.inHand, State.received]
      · rename_i found
        obtain rfl := Option.some.inj goes
        refine ⟨rfl, .inr ⟨s.buffer s.tail, found, consistent.found nothing found, ?_⟩⟩
        rw [taken_of_inHand nothing]
        rfl
  | bump ret =>
      rw [Mpsc.consume, here] at goes
      obtain rfl := Option.some.inj goes
      refine ⟨rfl, .inl ?_⟩
      rw [State.taken, State.taken, here]
      rfl
  | release ret =>
      rw [Mpsc.consume, here] at goes
      obtain rfl := Option.some.inj goes
      have inHand : s.consumer.inHand = some ret := by rw [here]; rfl
      refine ⟨rfl, .inl ?_⟩
      rw [State.taken, State.received, filterMap_returned, Call.received,
        if_neg (consistent.in_hand ret inHand), State.taken, inHand]
      simp [ConsumerPc.inHand, State.received]

/-- What a step does to the tickets and to the data taken. -/
theorem Consistent.effect (consistent : Consistent s) {action : Action Producer}
    (goes : Mpsc.step s action = some s') :
    s.issued <+: s'.issued ∧ (s'.taken = s.taken ∨ ∃ value, value ≠ empty ∧
      s.issued[s.taken.length]? = some value ∧ s'.taken = s.taken ++ [value]) := by
  cases action with
  | enqueue p data =>
      rw [Mpsc.step] at goes
      split at goes
      · obtain rfl := Option.some.inj goes
        exact ⟨List.prefix_rfl, .inl rfl⟩
      · exact absurd goes (by simp)
  | produce p =>
      have effect := produce_effect goes
      exact ⟨effect.1, .inl effect.2⟩
  | dequeue =>
      rw [Mpsc.step] at goes
      split at goes
      · rename_i idle
        obtain rfl := Option.some.inj goes
        refine ⟨List.prefix_rfl, .inl ?_⟩
        rw [State.taken, State.taken, idle]
        rfl
      · exact absurd goes (by simp)
  | consume =>
      have effect := consistent.consume_effect goes
      exact ⟨effect.1 ▸ List.prefix_rfl, effect.2⟩

omit [DecidableEq Producer] [Fintype Producer] in
theorem getElem?_of_queued {rest : List Word} {value : Word} (oldest : s.queued = value :: rest) :
    s.issued[s.taken.length]? = some value := by
  have : s.queued[0]? = some value := by rw [oldest]; rfl
  rwa [State.queued, List.getElem?_drop] at this

/-- -1 is data that can be enqueued and not dequeued: once it is the oldest of the queued data
nothing is taken out any more, whatever is called, and the queue fills up. -/
theorem enqueued_minus_one_blocks (reached : (machine Producer).Reachable (fun _ _ _ => True) s)
    {rest : List Word} (oldest : s.queued = empty :: rest) {actions : List (Action Producer)}
    (run : (machine Producer).runFrom s actions = some s') :
    s'.taken = s.taken ∧
      ∃ later, s'.queued = empty :: (rest ++ later) ∧ (rest ++ later).length < mpscQueueSize := by
  induction actions generalizing s rest with
  | nil =>
      obtain rfl := Option.some.inj run
      have few := (mpscq_fifo reached).2.2.1
      rw [oldest, List.length_cons] at few
      exact ⟨rfl, [], by rw [List.append_nil, oldest], by rw [List.append_nil]; omega⟩
  | cons action actions inductionHypothesis =>
      unfold Machine.runFrom at run
      cases goes : (machine Producer).step s action with
      | none => simp [goes] at run
      | some next =>
          simp only [goes] at run
          obtain ⟨⟨added, issued⟩, effect⟩ := (consistent_of_reachable reached).effect goes
          have taken : next.taken = s.taken := by
            rcases effect with same | ⟨value, notEmpty, isOldest, _⟩
            · exact same
            · rw [getElem?_of_queued oldest] at isOldest
              exact absurd (Option.some.inj isOldest).symm notEmpty
          have queued : next.queued = empty :: (rest ++ added) := by
            have inside : s.taken.length ≤ s.issued.length :=
              (consistent_of_reachable reached).ticketed.ring.taken_le
            rw [State.queued, taken, ← issued, List.drop_append_of_le_length inside,
              ← List.cons_append, ← oldest]
            rfl
          obtain ⟨same, later, all, few⟩ :=
            inductionHypothesis (.step reached goes trivial) queued run
          rw [List.append_assoc] at all few
          exact ⟨same.trans taken, added ++ later, all, few⟩

/-- A -1 is enqueued, and 5 after it. -/
def minusOneFirst : List (Action Bool) :=
  [.enqueue false empty, .produce false, .produce false, .produce false, .enqueue true 5#64,
    .produce true, .produce true, .produce true]

theorem enqueued_minus_one_blocks_two :
    ((machine Bool).runFrom ((machine Bool).final minusOneFirst)
      [.dequeue, .consume, .dequeue, .consume]).map State.taken = some [] := by
  have queued : ((machine Bool).final minusOneFirst).queued = empty :: [5#64] := by decide
  cases run : (machine Bool).runFrom ((machine Bool).final minusOneFirst)
      [.dequeue, .consume, .dequeue, .consume] with
  | none => exact absurd (congrArg Option.isSome run) (by decide)
  | some s' =>
      have blocked := enqueued_minus_one_blocks (Machine.reachable_final (fun _ _ _ => true)
        (fun _ _ _ _ => trivial) minusOneFirst (by decide)) queued run
      rw [Option.map_some, blocked.1]
      decide

omit [DecidableEq Producer] in
theorem rooms_of_idle {pc : Producer → Pc} (quiet : ∀ p, pc p = .idle) (room : Room) :
    rooms pc room = 0 := by
  simp [rooms, count, quiet, Pc.room]

/-- While no other call is in progress, `mpscq_enqueue` appends its data unless there are
`MPSC_QUEUE_SIZE` of them, and then it leaves the queue as it was. -/
theorem mpscq_enqueue_alone (reached : (machine Producer).Reachable (fun _ _ _ => True) s)
    (quiet : ∀ q, s.pc q = .idle) (still : s.consumer = .idle) (short : s.issued.length < 2 ^ 63)
    (p : Producer) (data : Word) :
    (s.queued.length < mpscQueueSize ∧
      ∃ s', (machine Producer).runFrom s [.enqueue p data, .produce p, .produce p, .produce p] =
          some s' ∧
        s'.queued = s.queued ++ [data] ∧ s'.returned = .enqueue p data true :: s.returned) ∨
    (s.queued.length = mpscQueueSize ∧
      ∃ s', (machine Producer).runFrom s [.enqueue p data, .produce p, .produce p] = some s' ∧
        s' = { s with returned := .enqueue p data false :: s.returned }) := by
  have consistent := consistent_of_reachable reached
  have taken : s.taken = s.received := taken_of_inHand (by rw [still]; rfl)
  have inside := consistent.ticketed.ring.taken_le
  have few := consistent.ticketed.ring.few
  have length : s.queued.length = s.issued.length - s.taken.length := List.length_drop
  have counted : s.count = s.queued.length := by
    rw [consistent.counted.count_eq, rooms_of_idle quiet, rooms_of_idle quiet, length, taken]
    rw [taken] at inside
    omega
  have settled : Function.update s.pc p .idle = s.pc := by
    rw [← quiet p, Function.update_eq_self]
  by_cases full : s.queued.length < mpscQueueSize
  · have notFull : ¬ s.count ≥ mpscQueueSize := by omega
    have cell : cellOf s.head = some (s.head % mpscQueueSize) := by
      rw [cellOf, if_pos (by rw [consistent.head_eq]; exact short)]
    refine .inl ⟨full,
      { s with
        buffer := Function.update s.buffer (s.head % mpscQueueSize) data
        count := s.count + 1
        head := s.head + 1
        issued := s.issued ++ [data]
        returned := .enqueue p data true :: s.returned }, ?_, ?_, rfl⟩
    · simp [Machine.runFrom, machine, Mpsc.step, Mpsc.produce, quiet p, notFull, cell, settled]
    · have same : State.taken
          { s with
            buffer := Function.update s.buffer (s.head % mpscQueueSize) data
            count := s.count + 1
            head := s.head + 1
            issued := s.issued ++ [data]
            returned := .enqueue p data true :: s.returned } = s.taken := taken_of_enqueue rfl rfl
      rw [State.queued, same, List.drop_append_of_le_length inside]
      rfl
  · have isFull : s.count ≥ mpscQueueSize := by omega
    refine .inr ⟨by omega, _, ?_, rfl⟩
    simp [Machine.runFrom, machine, Mpsc.step, Mpsc.produce, quiet p, isFull, settled]

theorem mpscq_enqueue_alone_interleaved :
    ((machine Bool).final interleaved).queued = [7#64] ∧
      ∃ s', (machine Bool).runFrom ((machine Bool).final interleaved)
          [.enqueue true 9#64, .produce true, .produce true, .produce true] = some s' ∧
        s'.queued = [7#64, 9#64] := by
  have queued : ((machine Bool).final interleaved).queued = [7#64] := by decide
  rcases mpscq_enqueue_alone (Machine.reachable_final (fun _ _ _ => true) (fun _ _ _ _ => trivial)
    interleaved (by decide)) (by decide) (by decide) (by decide) true 9#64 with
    ⟨_, s', run, after, _⟩ | ⟨full, _⟩
  · rw [queued] at after
    exact ⟨queued, s', run, after⟩
  · rw [queued] at full
    exact absurd full (by decide)

/-- `mpscq_dequeue` returns the oldest of the queued data if it is stored, whatever the producers
are doing. It returns -1 and takes nothing if there is none, if its producer is still to store
it, or if it is -1 itself. -/
theorem mpscq_dequeue_outcome (reached : (machine Producer).Reachable (fun _ _ _ => True) s)
    (still : s.consumer = .idle) :
    (∃ value rest, s.queued = value :: rest ∧ value ≠ empty ∧ ¬ Pending s.pc s.taken.length ∧
      ∃ s', (machine Producer).runFrom s [.dequeue, .consume, .consume, .consume] = some s' ∧
        s'.queued = rest ∧ s'.returned = .dequeue value :: s.returned) ∨
    ((∀ value rest, s.queued = value :: rest → value = empty ∨ Pending s.pc s.taken.length) ∧
      ∃ s', (machine Producer).runFrom s [.dequeue, .consume] = some s' ∧
        s' = { s with returned := .dequeue empty :: s.returned }) := by
  have consistent := consistent_of_reachable reached
  have nothing : s.consumer.inHand = none := by rw [still]; rfl
  have ring := consistent.ticketed.ring
  have oldest := consistent.tail_oldest nothing
  by_cases isEmpty : s.buffer s.tail = empty
  · refine .inr ⟨?_, _, ?_, rfl⟩
    · intro value rest queued
      by_cases waits : Pending s.pc s.taken.length
      · exact .inr waits
      · have stored := ring.stored _ value le_rfl (getElem?_of_queued queued) waits
        rw [← oldest, isEmpty] at stored
        exact .inl stored.symm
    · have same : Function.update s.buffer s.tail empty = s.buffer := by
        rw [← isEmpty, Function.update_eq_self]
      simp [Machine.runFrom, machine, Mpsc.step, Mpsc.consume, still, isEmpty, same]
  · obtain ⟨stored, isIssued⟩ := ring.oldest (by decide) (by rwa [← oldest])
    rw [← oldest] at isIssued
    obtain ⟨inside, value⟩ := List.getElem?_eq_some_iff.mp isIssued
    refine .inl ⟨s.buffer s.tail, s.issued.drop (s.taken.length + 1), ?_, isEmpty, stored,
      { s with
        buffer := Function.update s.buffer s.tail empty
        count := s.count - 1
        tail := nextTail s.tail
        returned := .dequeue (s.buffer s.tail) :: s.returned }, ?_, ?_, rfl⟩
    · rw [State.queued, List.drop_eq_getElem_cons inside, value]
    · simp [Machine.runFrom, machine, Mpsc.step, Mpsc.consume, still, isEmpty]
    · rw [State.queued, State.taken, State.received, filterMap_returned, Call.received,
        if_neg isEmpty, taken_of_inHand nothing]
      simp [nothing, State.received]

theorem mpscq_dequeue_outcome_interleaved :
    ((machine Bool).final interleaved).queued = [7#64] ∧
      ∃ s', (machine Bool).runFrom ((machine Bool).final interleaved)
          [.dequeue, .consume, .consume, .consume] = some s' ∧ s'.queued = [] := by
  have queued : ((machine Bool).final interleaved).queued = [7#64] := by decide
  rcases mpscq_dequeue_outcome (Machine.reachable_final (fun _ _ _ => true) (fun _ _ _ _ => trivial)
    interleaved (by decide)) (by decide) with
    ⟨value, rest, isQueued, _, _, s', run, after, _⟩ | ⟨blocked, _⟩
  · rw [queued, List.cons.injEq] at isQueued
    exact ⟨queued, s', run, after.trans isQueued.2.symm⟩
  · rcases blocked 7#64 [] queued with isEmpty | ⟨p, data, stores⟩
    · exact absurd isEmpty (by decide)
    · have idle : ∀ q, ((machine Bool).final interleaved).pc q = .idle := by decide
      rw [idle p] at stores
      exact absurd stores (by simp)

end Lupin.Queue.Mpsc
