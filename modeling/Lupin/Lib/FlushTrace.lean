import Lupin.Lib.StoreTrace

/-!
# Stores and write-backs

A computation on shared memory that also has ranges of it written back yields its stores and
these ranges, in order. With the ranges left out it is a computation by its stores. A store is
safe once a range that covers what it changed is written back behind it.
-/

namespace Lupin.Memory

/-- A range of addresses. -/
structure Range where
  addr : Nat
  len : Nat
deriving DecidableEq

inductive Event where
  | store (s : Store)
  | flush (range : Range)
deriving DecidableEq

def Event.asStore : Event → Option Store
  | .store s => some s
  | .flush _ => none

def Event.asFlush : Event → Option Range
  | .store _ => none
  | .flush range => some range

/-- The stores among the events. -/
def storesOf (events : List Event) : List Store := events.filterMap Event.asStore

/-- The ranges that are written back among the events. -/
def flushesOf (events : List Event) : List Range := events.filterMap Event.asFlush

section Events

variable (s : Store) (range : Range) (first second events : List Event)

@[simp] theorem storesOf_append :
    storesOf (first ++ second) = storesOf first ++ storesOf second :=
  List.filterMap_append

@[simp] theorem flushesOf_append :
    flushesOf (first ++ second) = flushesOf first ++ flushesOf second :=
  List.filterMap_append

@[simp] theorem storesOf_store : storesOf (.store s :: events) = s :: storesOf events := rfl

@[simp] theorem storesOf_flush : storesOf (.flush range :: events) = storesOf events := rfl

@[simp] theorem flushesOf_store : flushesOf (.store s :: events) = flushesOf events := rfl

@[simp] theorem flushesOf_flush :
    flushesOf (.flush range :: events) = range :: flushesOf events := rfl

@[simp] theorem storesOf_map_store (stores : List Store) :
    storesOf (stores.map .store) = stores := by
  induction stores with
  | nil => rfl
  | cons s rest inductionHypothesis =>
      rw [List.map_cons, storesOf_store, inductionHypothesis]

@[simp] theorem flushesOf_map_store (stores : List Store) : flushesOf (stores.map .store) = [] := by
  induction stores with
  | nil => rfl
  | cons s rest inductionHypothesis =>
      rw [List.map_cons, flushesOf_store, inductionHypothesis]

@[simp] theorem storesOf_map_flush (ranges : List Range) : storesOf (ranges.map .flush) = [] := by
  induction ranges with
  | nil => rfl
  | cons range rest inductionHypothesis =>
      rw [List.map_cons, storesOf_flush, inductionHypothesis]

@[simp] theorem flushesOf_map_flush (ranges : List Range) :
    flushesOf (ranges.map .flush) = ranges := by
  induction ranges with
  | nil => rfl
  | cons range rest inductionHypothesis =>
      rw [List.map_cons, flushesOf_flush, inductionHypothesis]

end Events

/-! ## Computations -/

/-- A computation over shared memory with write-backs. -/
def Pmem (α : Type) : Type := Mem → List Event × Option α

namespace Pmem

variable {α β : Type}

instance : Monad Pmem where
  pure a := fun _ => ([], some a)
  bind c f := fun m =>
    match c m with
    | (events, none) => (events, none)
    | (events, some a) =>
        let (more, value) := f a (m.apply (storesOf events))
        (events ++ more, value)

/-- A computation without write-backs. -/
def lift (c : Shm α) : Pmem α := fun m => ((c m).1.map .store, (c m).2)

/-- Write a range back. -/
def flush (addr len : Nat) : Pmem Unit := fun _ => ([.flush ⟨addr, len⟩], some ())

/-- Without the write-backs. -/
def erase (c : Pmem α) : Shm α := fun m => (storesOf (c m).1, (c m).2)

/-- From `m` the computation has these events and returns this value. -/
def Returns (c : Pmem α) (m : Mem) (events : List Event) (a : α) : Prop := c m = (events, some a)

theorem Returns.pure (m : Mem) (a : α) : (Pure.pure a : Pmem α).Returns m [] a := rfl

theorem Returns.flush (m : Mem) (addr len : Nat) :
    (Pmem.flush addr len).Returns m [.flush ⟨addr, len⟩] () := rfl

theorem Returns.lift {c : Shm α} {m : Mem} {stores : List Store} {a : α}
    (returns : c.Returns m stores a) : (Pmem.lift c).Returns m (stores.map .store) a := by
  unfold Shm.Returns at returns
  rw [Returns, Pmem.lift, returns]

theorem bind_of_none {c : Pmem α} {f : α → Pmem β} {m : Mem} {events : List Event}
    (stops : c m = (events, none)) : (c >>= f) m = (events, none) := by
  change (match c m with
    | (events, none) => (events, none)
    | (events, some a) =>
        (events ++ (f a (m.apply (storesOf events))).1, (f a (m.apply (storesOf events))).2)) = _
  rw [stops]

theorem Returns.bind_apply {c : Pmem α} {f : α → Pmem β} {m : Mem} {events : List Event} {a : α}
    (returns : c.Returns m events a) :
    (c >>= f) m = (events ++ (f a (m.apply (storesOf events))).1,
      (f a (m.apply (storesOf events))).2) := by
  unfold Returns at returns
  change (match c m with
    | (events, none) => (events, none)
    | (events, some a) =>
        (events ++ (f a (m.apply (storesOf events))).1, (f a (m.apply (storesOf events))).2)) = _
  rw [returns]

theorem Returns.bind {c : Pmem α} {f : α → Pmem β} {m : Mem} {first second : List Event} {a : α}
    {b : β} (returns : c.Returns m first a)
    (next : (f a).Returns (m.apply (storesOf first)) second b) :
    (c >>= f).Returns m (first ++ second) b := by
  unfold Returns at next
  rw [Returns, returns.bind_apply, next]

/-- The memory is read first. -/
theorem lift_get_bind (f : Mem → Pmem β) (m : Mem) : (Pmem.lift Shm.get >>= f) m = f m m := rfl

theorem erase_pure (a : α) : erase (Pure.pure a : Pmem α) = Pure.pure a := rfl

theorem erase_flush (addr len : Nat) : erase (Pmem.flush addr len) = Pure.pure () := rfl

theorem erase_lift (c : Shm α) : erase (Pmem.lift c) = c := by
  funext m
  exact Prod.ext (storesOf_map_store _) rfl

theorem erase_bind (c : Pmem α) (f : α → Pmem β) :
    erase (c >>= f) = erase c >>= fun a => erase (f a) := by
  funext m
  rcases first : c m with ⟨events, _ | a⟩
  · have stops : erase c m = (storesOf events, none) := by rw [erase, first]
    rw [Shm.bind_of_none stops, erase, bind_of_none first]
  · have returns : (erase c).Returns m (storesOf events) a := by rw [Shm.Returns, erase, first]
    rw [returns.bind_apply, erase, Returns.bind_apply first]
    exact Prod.ext (storesOf_append _ _) rfl

end Pmem

/-! ## What is written back -/

section Flushed

variable (covers : Range → Nat → Prop)

/-- Every address a store changes is in a range that is written back behind the store. -/
def Flushed (m : Mem) (events : List Event) : Prop :=
  ∀ before s after, events = before ++ .store s :: after →
    ∀ a, (m.apply (storesOf before)).store s a ≠ m.apply (storesOf before) a →
      ∃ range ∈ flushesOf after, covers range a

/-- The same when some ranges are written back behind all events. -/
def FlushedBy (later : List Range) : Mem → List Event → Prop
  | _, [] => True
  | m, .store s :: rest =>
      (∀ a, m.store s a ≠ m a → ∃ range ∈ flushesOf rest ++ later, covers range a) ∧
        FlushedBy later (m.store s) rest
  | m, .flush _ :: rest => FlushedBy later m rest

variable {covers} {later : List Range} {m : Mem}

theorem flushed_iff {events : List Event} :
    Flushed covers m events ↔ FlushedBy covers [] m events := by
  induction events generalizing m with
  | nil => exact ⟨fun _ => trivial, fun _ before s after split => by simp at split⟩
  | cons event rest inductionHypothesis =>
      cases event with
      | flush range =>
          refine Iff.trans ?_ inductionHypothesis
          constructor
          · intro flushed before s after split
            exact flushed (.flush range :: before) s after (by rw [split]; rfl)
          · intro flushed before s after split
            rcases List.append_eq_cons_iff.mp split.symm with ⟨rfl, same⟩ | ⟨more, rfl, same⟩
            · cases same
            · exact flushed more s after same
      | store first =>
          rw [FlushedBy, ← inductionHypothesis, List.append_nil]
          constructor
          · intro flushed
            refine ⟨flushed [] first rest rfl, fun before s after split => ?_⟩
            exact flushed (.store first :: before) s after (by rw [split]; rfl)
          · rintro ⟨here, flushed⟩ before s after split
            rcases List.append_eq_cons_iff.mp split.symm with ⟨rfl, same⟩ | ⟨more, rfl, same⟩
            · obtain ⟨rfl, rfl⟩ : s = first ∧ after = rest := by simpa using same
              exact here
            · exact flushed more s after same

theorem flushedBy_append {first second : List Event} :
    FlushedBy covers later m (first ++ second) ↔
      FlushedBy covers (flushesOf second ++ later) m first ∧
        FlushedBy covers later (m.apply (storesOf first)) second := by
  induction first generalizing m with
  | nil => exact (and_iff_right trivial).symm
  | cons event rest inductionHypothesis =>
      cases event with
      | flush range => exact inductionHypothesis
      | store s =>
          rw [List.cons_append, FlushedBy, FlushedBy, inductionHypothesis, flushesOf_append,
            List.append_assoc, and_assoc]
          rfl

theorem flushedBy_flushes (ranges : List Range) :
    FlushedBy covers later m (ranges.map .flush) := by
  induction ranges with
  | nil => trivial
  | cons range rest inductionHypothesis => exact inductionHypothesis

/-- Stores each of whose changes is written back behind all of them. -/
theorem flushedBy_stores {stores : List Store}
    (covered : ∀ s ∈ stores, ∀ a, s.Covers a → ∃ range ∈ later, covers range a) :
    FlushedBy covers later m (stores.map .store) := by
  induction stores generalizing m with
  | nil => trivial
  | cons s rest inductionHypothesis =>
      refine ⟨fun a changed => ?_,
        inductionHypothesis fun t member => covered t (List.mem_cons_of_mem _ member)⟩
      rw [flushesOf_map_store, List.nil_append]
      refine covered s List.mem_cons_self a ?_
      by_contra outside
      exact changed (Mem.store_of_not_covers outside)

end Flushed

end Lupin.Memory
