import Lupin.Lib.Memory

/-!
# Computations on shared memory, by the stores they make

A computation sees the memory it starts from with its own stores applied, and
yields the stores it makes and a value, or no value where it stops for good (a
failed `BUG_ON`, a loop that never ends). Calls are sequenced with `do`.
-/

namespace Lupin.Memory

/-- A computation over shared memory. -/
def Shm (α : Type) : Type := Mem → List Store × Option α

namespace Shm

variable {α β : Type}

instance : Monad Shm where
  pure a := fun _ => ([], some a)
  bind c f := fun m =>
    match c m with
    | (stores, none) => (stores, none)
    | (stores, some a) =>
        let (more, value) := f a (m.apply stores)
        (stores ++ more, value)

/-- The memory as it is now. -/
def get : Shm Mem := fun m => ([], some m)

/-- Make one store. -/
def put (s : Store) : Shm Unit := fun _ => ([s], some ())

/-- Make several stores. -/
def putAll (stores : List Store) : Shm Unit := fun _ => (stores, some ())

/-- Stop for good. -/
def stop : Shm α := fun _ => ([], none)

/-- The macro `BUG_ON`. -/
def bugOn (condition : Bool) : Shm Unit := if condition then stop else pure ()

/-- The stores a computation makes from `m`. -/
def stores (c : Shm α) (m : Mem) : List Store := (c m).1

/-- The memory a computation leaves. -/
def final (c : Shm α) (m : Mem) : Mem := m.apply (c.stores m)

/-- The memory when the machine stops after the first `k` stores. -/
def crashed (c : Shm α) (m : Mem) (k : Nat) : Mem := m.apply ((c.stores m).take k)

/-- The memory and the value of a computation that returns. -/
def run (c : Shm α) (m : Mem) : Option (Mem × α) := (c m).2.map fun a => (c.final m, a)

/-- From `m` the computation makes these stores and returns this value. -/
def Returns (c : Shm α) (m : Mem) (stores : List Store) (a : α) : Prop := c m = (stores, some a)

theorem Returns.stores_eq {c : Shm α} {m : Mem} {stores : List Store} {a : α}
    (returns : c.Returns m stores a) : c.stores m = stores :=
  congrArg Prod.fst returns

theorem Returns.final_eq {c : Shm α} {m : Mem} {stores : List Store} {a : α}
    (returns : c.Returns m stores a) : c.final m = m.apply stores :=
  congrArg m.apply returns.stores_eq

theorem Returns.run_eq {c : Shm α} {m : Mem} {stores : List Store} {a : α}
    (returns : c.Returns m stores a) : c.run m = some (m.apply stores, a) := by
  have value : (c m).2 = some a := congrArg Prod.snd returns
  rw [run, value, returns.final_eq, Option.map_some]

theorem Returns.pure (m : Mem) (a : α) : (Pure.pure a : Shm α).Returns m [] a := rfl

theorem Returns.get (m : Mem) : Shm.get.Returns m [] m := rfl

theorem Returns.put (m : Mem) (s : Store) : (Shm.put s).Returns m [s] () := rfl

theorem Returns.putAll (m : Mem) (stores : List Store) :
    (Shm.putAll stores).Returns m stores () := rfl

theorem Returns.putAll_bind {f : Unit → Shm β} {m : Mem} {first stores : List Store} {b : β}
    (next : (f ()).Returns (m.apply first) stores b) :
    (Shm.putAll first >>= f).Returns m (first ++ stores) b := by
  unfold Returns at *
  change (first ++ (f () (m.apply first)).1, (f () (m.apply first)).2) = _
  rw [next]

theorem Returns.putAll_pure (m : Mem) (stores : List Store) (a : α) :
    (Shm.putAll stores >>= fun _ => Pure.pure a).Returns m stores a := by
  have both := Returns.putAll_bind (f := fun _ => Pure.pure a) (Returns.pure (m.apply stores) a)
  rwa [List.append_nil] at both

theorem Returns.bugOn {condition : Bool} (fine : condition = false) (m : Mem) :
    (Shm.bugOn condition).Returns m [] () := by
  subst fine
  rfl

theorem bind_of_none {c : Shm α} {f : α → Shm β} {m : Mem} {stores : List Store}
    (stops : c m = (stores, none)) : (c >>= f) m = (stores, none) := by
  change (match c m with
    | (stores, none) => (stores, none)
    | (stores, some a) => (stores ++ (f a (m.apply stores)).1, (f a (m.apply stores)).2)) = _
  rw [stops]

theorem Returns.bind_apply {c : Shm α} {f : α → Shm β} {m : Mem} {stores : List Store} {a : α}
    (returns : c.Returns m stores a) :
    (c >>= f) m = (stores ++ (f a (m.apply stores)).1, (f a (m.apply stores)).2) := by
  unfold Returns at returns
  change (match c m with
    | (stores, none) => (stores, none)
    | (stores, some a) => (stores ++ (f a (m.apply stores)).1, (f a (m.apply stores)).2)) = _
  rw [returns]

/-- Calls in sequence: the second starts from what the first left. -/
theorem Returns.bind {c : Shm α} {f : α → Shm β} {m : Mem} {first second : List Store} {a : α}
    {b : β} (returns : c.Returns m first a) (next : (f a).Returns (m.apply first) second b) :
    (c >>= f).Returns m (first ++ second) b := by
  unfold Returns at next
  rw [Returns, returns.bind_apply, next]

/-- After a call that only reads, the rest runs from the same memory. -/
theorem Returns.bind_eq {c : Shm α} {f : α → Shm β} {m : Mem} {a : α}
    (returns : c.Returns m [] a) : (c >>= f) m = f a m := by
  rw [returns.bind_apply]
  rfl

/-- Two ways to go on are the same if they are where the first call leads. -/
theorem bind_congr {c : Shm α} {f g : α → Shm β} {m : Mem}
    (same : ∀ stores a, c.Returns m stores a → f a (m.apply stores) = g a (m.apply stores)) :
    (c >>= f) m = (c >>= g) m := by
  rcases first : c m with ⟨stores, _ | a⟩
  · rw [bind_of_none first, bind_of_none first]
  · rw [Returns.bind_apply first, Returns.bind_apply first, same stores a first]

theorem bind_left_congr {c d : Shm α} {m : Mem} (same : c m = d m) (f : α → Shm β) :
    (c >>= f) m = (d >>= f) m := by
  rcases first : c m with ⟨stores, _ | a⟩
  · rw [bind_of_none first, bind_of_none (same.symm.trans first)]
  · rw [Returns.bind_apply first, Returns.bind_apply (same.symm.trans first)]

/-- A computation whose value goes through a function. -/
theorem bind_pure_apply {c : Shm α} {m : Mem} {stores : List Store} {result : Option α}
    (ran : c m = (stores, result)) (f : α → β) :
    (c >>= fun a => Pure.pure (f a)) m = (stores, result.map f) := by
  cases result with
  | none => exact bind_of_none ran
  | some a =>
      have both := Returns.bind (f := fun a => Pure.pure (f a)) ran (Returns.pure _ _)
      rwa [List.append_nil] at both

/-- A sequence stops if it does wherever the first call leads. -/
theorem bind_stops {c : Shm α} {f : α → Shm β} {m : Mem}
    (stops : ∀ stores a, c.Returns m stores a → (f a (m.apply stores)).2 = none) :
    ((c >>= f) m).2 = none := by
  rcases first : c m with ⟨stores, _ | a⟩
  · rw [bind_of_none first]
  · rw [Returns.bind_apply first]
    exact stops stores a first

instance : LawfulMonad Shm := LawfulMonad.mk' Shm
  (fun c => by
    funext m
    change (c >>= Pure.pure ∘ id) m = c m
    rcases first : c m with ⟨stores, _ | a⟩
    · exact bind_of_none first
    · rw [Returns.bind_apply first]
      exact Prod.ext (List.append_nil stores) rfl)
  (fun a f => by
    funext m
    exact (Returns.pure m a).bind_eq)
  (fun c f g => by
    funext m
    rcases first : c m with ⟨stores, _ | a⟩
    · rw [bind_of_none (bind_of_none first), bind_of_none first]
    · rw [Returns.bind_apply first]
      rcases second : f a (m.apply stores) with ⟨more, _ | b⟩
      · have both : (c >>= f) m = (stores ++ more, none) := by
          rw [Returns.bind_apply first, second]
        rw [bind_of_none both, bind_of_none second]
      · have both : (c >>= f).Returns m (stores ++ more) b := Returns.bind first second
        rw [both.bind_apply, Returns.bind_apply second, Mem.apply_append, List.append_assoc])

theorem Returns.get_bind {f : Mem → Shm β} {m : Mem} {stores : List Store} {b : β}
    (next : (f m).Returns m stores b) : (Shm.get >>= f).Returns m stores b :=
  Returns.bind (Returns.get m) next

/-- A call that only reads, and what follows. -/
theorem Returns.read_bind {c : Shm α} {f : α → Shm β} {m : Mem} {stores : List Store} {a : α}
    {b : β} (returns : c.Returns m [] a) (next : (f a).Returns m stores b) :
    (c >>= f).Returns m stores b := Returns.bind returns next

theorem Returns.put_bind {f : Unit → Shm β} {m : Mem} {s : Store} {stores : List Store} {b : β}
    (next : (f ()).Returns (m.store s) stores b) :
    (Shm.put s >>= f).Returns m (s :: stores) b :=
  Returns.bind (Returns.put m s) next

theorem Returns.bugOn_bind {f : Unit → Shm β} {condition : Bool} {m : Mem}
    {stores : List Store} {b : β} (fine : condition = false) (next : (f ()).Returns m stores b) :
    (Shm.bugOn condition >>= f).Returns m stores b :=
  Returns.bind (Returns.bugOn fine m) next

/-- The stores of a sequence that returns split at the first call's. -/
theorem Returns.of_bind {c : Shm α} {f : α → Shm β} {m : Mem} {stores : List Store} {b : β}
    (returns : (c >>= f).Returns m stores b) :
    ∃ first a second, c.Returns m first a ∧ (f a).Returns (m.apply first) second b ∧
      stores = first ++ second := by
  unfold Returns at returns
  rcases first : c m with ⟨before, _ | a⟩
  · rw [bind_of_none first] at returns
    simp at returns
  · rw [Returns.bind_apply first] at returns
    obtain ⟨split, result⟩ := Prod.mk.inj returns
    exact ⟨before, a, (f a (m.apply before)).1, first, Prod.ext rfl result, split.symm⟩

theorem Returns.of_bind_pure {c : Shm α} {f : α → β} {m : Mem} {stores : List Store} {b : β}
    (returns : (c >>= fun a => Pure.pure (f a)).Returns m stores b) :
    ∃ a, c.Returns m stores a ∧ f a = b := by
  obtain ⟨first, a, second, ran, last, rfl⟩ := returns.of_bind
  obtain ⟨rfl, value⟩ := Prod.mk.inj last
  rw [List.append_nil]
  exact ⟨a, ran, Option.some.inj value⟩

theorem Returns.unique {c : Shm α} {m : Mem} {stores stores' : List Store} {a a' : α}
    (returns : c.Returns m stores a) (returns' : c.Returns m stores' a') :
    stores = stores' ∧ a = a' := by
  unfold Returns at *
  rw [returns] at returns'
  simpa using returns'

/-- Every store of the computation has the property, from whatever memory it starts. -/
def Emits (property : Store → Prop) (c : Shm α) : Prop := ∀ m, ∀ s ∈ c.stores m, property s

section Emits

variable {property : Store → Prop}

theorem Emits.pure (a : α) : Emits property (Pure.pure a : Shm α) := fun _ _ member =>
  absurd member List.not_mem_nil

theorem Emits.stop : Emits property (Shm.stop : Shm α) := fun _ _ member =>
  absurd member List.not_mem_nil

theorem Emits.put {s : Store} (holds : property s) : Emits property (Shm.put s) :=
  fun _ _ member => (List.mem_singleton.mp member) ▸ holds

theorem Emits.bind {c : Shm α} {f : α → Shm β} (first : Emits property c)
    (next : ∀ a, Emits property (f a)) : Emits property (c >>= f) := by
  intro m s member
  have before := first m
  unfold Shm.stores at member before
  rcases split : c m with ⟨stores, _ | a⟩
  · rw [bind_of_none split] at member
    rw [split] at before
    exact before s member
  · rw [Returns.bind_apply split] at member
    rw [split] at before
    rcases List.mem_append.mp member with early | late
    · exact before s early
    · exact next a (m.apply stores) s late

theorem Emits.ite {condition : Prop} [Decidable condition] {c d : Shm α}
    (first : Emits property c) (second : Emits property d) :
    Emits property (if condition then c else d) := by
  split
  · exact first
  · exact second

theorem Emits.get_bind {f : Mem → Shm β} (next : ∀ m, Emits property (f m)) :
    Emits property (Shm.get >>= f) :=
  Emits.bind (fun _ _ member => absurd member List.not_mem_nil) next

end Emits

/-- The computation returns, from whatever memory it starts. -/
def Total (c : Shm α) : Prop := ∀ m, ∃ stores a, c.Returns m stores a

section Total

theorem Total.pure (a : α) : Total (Pure.pure a : Shm α) := fun m => ⟨[], a, Returns.pure m a⟩

theorem Total.bind {c : Shm α} {f : α → Shm β} (first : Total c) (next : ∀ a, Total (f a)) :
    Total (c >>= f) := by
  intro m
  obtain ⟨stores, a, returns⟩ := first m
  obtain ⟨more, b, returns'⟩ := next a (m.apply stores)
  exact ⟨stores ++ more, b, returns.bind returns'⟩

theorem Total.get_bind {f : Mem → Shm β} (next : ∀ m, Total (f m)) : Total (Shm.get >>= f) :=
  Total.bind (fun m => ⟨[], m, Returns.get m⟩) next

theorem Total.ite {condition : Prop} [Decidable condition] {c d : Shm α} (first : Total c)
    (second : Total d) : Total (if condition then c else d) := by
  split
  · exact first
  · exact second

end Total

end Shm

end Lupin.Memory
