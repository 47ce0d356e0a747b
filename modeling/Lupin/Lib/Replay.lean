import Lupin.Lib.StoreTrace

/-!
# Computations that may be interrupted and run again

A computation that is stopped after some of its stores and started again sees these stores, and
what others have written meanwhile. It replays if it then makes all its stores as in a run that
was never interrupted, whichever of them memory has by then and whatever has become of an area
that belongs to others. Stores of fixed bytes replay, and so does one read-modify-write of a byte
that is idempotent. A recovery heals a memory if it completes from there, however often it is
itself interrupted.
-/

namespace Lupin.Memory

/-- The memories are the same outside this area. -/
def Mem.AgreeOff (area : Nat → Prop) (m m' : Mem) : Prop := ∀ a, ¬ area a → m' a = m a

/-- The store stays out of the area. -/
def Store.Avoids (area : Nat → Prop) (s : Store) : Prop := ∀ a, s.Covers a → ¬ area a

namespace Mem

variable {area : Nat → Prop} {m m' m'' : Mem} {stores : List Store}

theorem AgreeOff.refl (area : Nat → Prop) (m : Mem) : AgreeOff area m m := fun _ _ => rfl

theorem AgreeOff.symm (agree : AgreeOff area m m') : AgreeOff area m' m :=
  fun a out => (agree a out).symm

theorem AgreeOff.trans (first : AgreeOff area m m') (second : AgreeOff area m' m'') :
    AgreeOff area m m'' := fun a out => (second a out).trans (first a out)

theorem AgreeOff.apply (agree : AgreeOff area m m') (stores : List Store) :
    AgreeOff area (m.apply stores) (m'.apply stores) := fun a out =>
  apply_congr (agree a out) stores

/-- Stores that avoid the area leave it alone. -/
theorem apply_of_avoids (avoids : ∀ s ∈ stores, s.Avoids area) {a : Nat} (inArea : area a)
    (m : Mem) : m.apply stores a = m a :=
  apply_of_not_covers (fun s member covers => avoids s member a covers inArea) m

/-- Stores some of which have been made before leave what they leave the first time. -/
theorem apply_apply_of_subset (m : Mem) {early : List Store} (subset : early ⊆ stores) :
    (m.apply early).apply stores = m.apply stores := by
  funext a
  by_cases covered : ∃ s ∈ stores, s.Covers a
  · exact apply_eq_of_covered _ _ covered
  · have untouched : ∀ s ∈ stores, ¬ s.Covers a := fun s member covers =>
      covered ⟨s, member, covers⟩
    rw [apply_of_not_covers untouched, apply_of_not_covers untouched,
      apply_of_not_covers fun s member => untouched s (subset member)]

end Mem

namespace Shm

variable {α β γ ι : Type} {area : Nat → Prop}

/-- Started with any of its stores made, and with anything in the area, the computation makes
them all again. -/
def Replays (area : Nat → Prop) (c : Shm α) (m : Mem) (stores : List Store) (a : α) : Prop :=
  ∀ early n, early ⊆ stores → Mem.AgreeOff area (m.apply early) n → c.Returns n stores a

/-- The computation makes the same stores from every memory. -/
def Constant (c : Shm α) (stores : List Store) (a : α) : Prop := ∀ m, c.Returns m stores a

section Replay

theorem Replays.returns {c : Shm α} {m : Mem} {stores : List Store} {a : α}
    (replays : Replays area c m stores a) : c.Returns m stores a :=
  replays [] m (List.nil_subset _) (.refl _ _)

/-- An idempotent update of one byte between fixed stores, of which those behind it leave the
byte alone. -/
theorem Replays.of_update {c : Shm α} {f : α → Shm β} {g : β → Shm γ}
    {before fixed behind : List Store}
    {a : α} {b : β} {r : γ} (x : Nat) (update : Byte → Byte) (first : Constant c before a)
    (middle : ∀ m, (f a).Returns m (⟨x, [update (m x)]⟩ :: fixed) b)
    (last : Constant (g b) behind r) (idempotent : ∀ byte, update (update byte) = update byte)
    (untouched : ∀ s ∈ fixed ++ behind, ¬ s.Covers x) (owned : ¬ area x) (m : Mem) :
    Replays area (c >>= fun a => f a >>= g) m
      (before ++ (⟨x, [update (m.apply before x)]⟩ :: (fixed ++ behind))) r := by
  intro early n subset agree
  -- the update writes what it wrote, as it or the stores before it have been made or not
  have same : update (n.apply before x) = update (m.apply before x) := by
    by_cases covered : ∃ s ∈ before, s.Covers x
    · rw [Mem.apply_eq_of_covered _ m covered]
    · have kept : ∀ s ∈ before, ¬ s.Covers x := fun s member covers => covered ⟨s, member, covers⟩
      rw [Mem.apply_of_not_covers kept, Mem.apply_of_not_covers kept, agree x owned] at *
      clear agree
      have steady : ∀ m' : Mem, update (m' x) = update (m x) →
          update (m'.apply early x) = update (m x) := by
        induction early with
        | nil => exact fun m' now => now
        | cons s rest inductionHypothesis =>
            intro m' now
            rw [Mem.apply_cons]
            refine inductionHypothesis (fun t member => subset (List.mem_cons_of_mem _ member)) _ ?_
            rcases List.mem_append.mp (subset (List.mem_cons_self : s ∈ s :: rest)) with old | new
            · rw [Mem.store_of_not_covers (kept s old), now]
            · rcases List.mem_cons.mp new with rfl | fixed
              · have written : m'.store ⟨x, [update (m x)]⟩ x = update (m x) := by
                  simp [Mem.store]
                rw [written, idempotent]
              · rw [Mem.store_of_not_covers (untouched s fixed), now]
      exact steady m rfl
  have rest := (middle (n.apply before)).bind (last _)
  have whole := (first n).bind (f := fun a => f a >>= g) rest
  rw [same] at whole
  simpa only [List.cons_append] using whole

end Replay

/-! ## Recovery -/

section Heal

variable {recovery : ι → Shm α} {fine : ι → α → Prop} {cut : List Store → Prop} {m m' : Mem}

/-- Recovery leads from `m` to `m'` with a fine result, and leaves the area alone, whatever it
holds. It may be interrupted wherever the stores it has left are a `cut`, and what it has made of
memory then is healed in the same way. -/
def Heals (recovery : ι → Shm α) (fine : ι → α → Prop) (cut : List Store → Prop)
    (area : Nat → Prop) (m m' : Mem) : Prop :=
  ∃ inside : Mem → Prop, inside m ∧
    (∀ n n', inside n → Mem.AgreeOff area n n' → inside n') ∧
    ∀ n, inside n → ∀ i, ∃ stores a, (recovery i).Returns n stores a ∧ fine i a ∧
      (∀ s ∈ stores, s.Avoids area) ∧ Mem.AgreeOff area m' (n.apply stores) ∧
      ∀ k, cut (stores.drop k) → inside (n.apply (stores.take k))

theorem Heals.returns (heals : Heals recovery fine cut area m m') (i : ι) :
    ∃ stores a, (recovery i).Returns m stores a ∧ fine i a ∧
      (∀ s ∈ stores, s.Avoids area) ∧ Mem.AgreeOff area m' (m.apply stores) := by
  obtain ⟨_, here, _, closed⟩ := heals
  obtain ⟨stores, a, returns, isFine, avoids, leads, _⟩ := closed m here i
  exact ⟨stores, a, returns, isFine, avoids, leads⟩

theorem Heals.interrupted (heals : Heals recovery fine cut area m m') {i : ι} {stores : List Store}
    {a : α} (returns : (recovery i).Returns m stores a) {k : Nat} (allowed : cut (stores.drop k)) :
    Heals recovery fine cut area (m.apply (stores.take k)) m' := by
  obtain ⟨inside, here, stable, closed⟩ := heals
  obtain ⟨stores', a', returns', _, _, _, again⟩ := closed m here i
  obtain ⟨rfl, _⟩ := returns.unique returns'
  exact ⟨inside, again k allowed, stable, closed⟩

theorem Heals.congr (heals : Heals recovery fine cut area m m') {n n' : Mem}
    (start : Mem.AgreeOff area m n) (target : Mem.AgreeOff area m' n') :
    Heals recovery fine cut area n n' := by
  obtain ⟨inside, here, stable, closed⟩ := heals
  refine ⟨inside, stable m n here start, stable, fun k isInside i => ?_⟩
  obtain ⟨stores, a, returns, isFine, avoids, leads, again⟩ := closed k isInside i
  exact ⟨stores, a, returns, isFine, avoids, target.symm.trans leads, again⟩

/-- What recovery leads to, it leaves alone. -/
theorem Heals.settled [Nonempty ι] (heals : Heals recovery fine cut area m m') (atEnd : cut []) :
    Heals recovery fine cut area m' m' := by
  obtain ⟨stores, a, returns, _, _, leads⟩ := heals.returns Classical.ofNonempty
  have whole := heals.interrupted returns (k := stores.length) (by rwa [List.drop_length])
  rw [List.take_length] at whole
  exact whole.congr leads.symm (.refl _ _)

/-- Others may give up some of their area, where recovery has nothing to do. -/
theorem Heals.shrink (heals : Heals recovery fine cut area m m') {area' : Nat → Prop}
    (less : ∀ a, area' a → area a) (same : ∀ a, area a → m a = m' a) :
    Heals recovery fine cut area' m m' := by
  obtain ⟨inside, here, stable, closed⟩ := heals
  refine ⟨fun n => inside n ∧ ∀ a, area a → ¬ area' a → n a = m' a,
    ⟨here, fun a inArea _ => same a inArea⟩, ?_, ?_⟩
  · rintro n n' ⟨isInside, kept⟩ agree
    refine ⟨stable n n' isInside fun a out => agree a fun inLess => out (less a inLess), ?_⟩
    exact fun a inArea out => (agree a out).trans (kept a inArea out)
  · rintro n ⟨isInside, kept⟩ i
    obtain ⟨stores, a, returns, isFine, avoids, leads, again⟩ := closed n isInside i
    refine ⟨stores, a, returns, isFine, fun s member x covers inLess =>
      avoids s member x covers (less x inLess), fun x out => ?_, fun k allowed => ⟨again k allowed,
        fun x inArea out => ?_⟩⟩
    · by_cases inArea : area x
      · rw [Mem.apply_of_avoids avoids inArea, kept x inArea out]
      · exact leads x inArea
    · rw [Mem.apply_of_avoids (fun s member => avoids s (List.mem_of_mem_take member)) inArea,
        kept x inArea out]

end Heal

end Shm

end Lupin.Memory
