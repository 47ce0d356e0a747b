import Mathlib.Algebra.Group.Nat.Defs
import Mathlib.Logic.Function.Basic
import Mathlib.Order.Basic
import Mathlib.Tactic.Common

/-!
# A tree refreshed twice at each node

Every inner node of a heap-numbered tree holds a combination of its two children. A process
that has changed a node goes up from there and refreshes each node twice: it loads the node,
loads the children, and swaps the node for their combination unless the node was written
since it was loaded.

Two refreshes are enough. When both swaps fail, a second process has swapped between the load
and the swap of the second refresh; it has loaded the node after the first swap that came
between, so it has loaded the children when they were already changed. The invariant names,
for each child whose value has not come to its parent, a process that still brings it.
-/

namespace Lupin.DoubleRefresh

universe u v

/-- A refresh under way: of which node, whether for the second time, at which version the node
was loaded, and what was loaded of its children. -/
structure Place (α : Type u) where
  pos : Nat
  again : Bool
  version : Option Nat
  read : Nat → Option α

/-- The tree, how often each node was written, the value each node had when its parent was
computed from it, and the refreshes under way. -/
structure View (Process : Type v) (α : Type u) where
  nodes : Nat → α
  version : Nat → Nat
  used : Nat → α
  place : Process → Option (Place α)

variable {Process : Type v} {α : Type u}

/-- A refresh that has loaded nothing. -/
def Place.start (pos : Nat) (again : Bool) : Place α := ⟨pos, again, none, fun _ => none⟩

/-- Behind the swap of a refresh. -/
def Place.after (here : Place α) : Option (Place α) :=
  if here.again then (if here.pos = 1 then none else some (.start (here.pos / 2) false))
  else some (.start here.pos true)

def View.move [DecidableEq Process] (s : View Process α) (q : Process)
    (place : Option (Place α)) : View Process α :=
  { s with place := Function.update s.place q place }

def View.write (s : View Process α) (pos : Nat) (value : α) : View Process α :=
  { s with
    nodes := Function.update s.nodes pos value
    version := Function.update s.version pos (s.version pos + 1) }

/-- The swap of a refresh that succeeds. -/
def View.swap (s : View Process α) (combine : α → α → α) (pos : Nat) (left right : α) :
    View Process α :=
  { s.write pos (combine left right) with
    used := Function.update (Function.update s.used (2 * pos) left) (2 * pos + 1) right }

/-- Every refresh of the parent whose swap can still succeed has the current value of the
node, if it has loaded it. -/
def Clean (s : View Process α) (c : Nat) : Prop :=
  ∀ q here, s.place q = some here → here.pos = c / 2 → here.version = some (s.version (c / 2)) →
    ∀ value, here.read c = some value → value = s.nodes c

/-- The parent has been computed from the current value. -/
structure Current (s : View Process α) (c : Nat) : Prop where
  used : s.used c = s.nodes c
  clean : Clean s c

/-- A process still brings the value of the node to its parent. -/
inductive Pending (s : View Process α) (c : Nat) : Prop where
  /-- It is at the node or below. -/
  | below (q : Process) (here : Place α) (k : Nat) (at_ : s.place q = some here)
      (under : here.pos / 2 ^ k = c)
  /-- Its first swap at the parent can still succeed, and with the current value. -/
  | first (q : Process) (here : Place α) (at_ : s.place q = some here) (parent : here.pos = c / 2)
      (once : here.again = false)
      (live : ∀ version, here.version = some version → version = s.version (c / 2))
      (fresh : ∀ value, here.read c = some value → value = s.nodes c)
  /-- Its first swap will fail, and all that can succeed have the current value. -/
  | overtaken (q : Process) (here : Place α) (at_ : s.place q = some here)
      (parent : here.pos = c / 2) (once : here.again = false) (clean : Clean s c)
  /-- Its second swap can still succeed, as others with the current value. -/
  | second (q : Process) (here : Place α) (at_ : s.place q = some here)
      (parent : here.pos = c / 2) (twice : here.again = true)
      (live : ∀ version, here.version = some version → version = s.version (c / 2))
      (clean : Clean s c)

/-- The tree has its leaves at `size` and above. -/
structure Invariant (combine : α → α → α) (size : Nat) (s : View Process α) : Prop where
  combined : ∀ pos, 0 < pos → pos < size →
    s.nodes pos = combine (s.used (2 * pos)) (s.used (2 * pos + 1))
  known : ∀ c, 2 ≤ c → c < 2 * size → Current s c ∨ Pending s c
  notNewer : ∀ q here version, s.place q = some here → here.version = some version →
    version ≤ s.version here.pos
  inner : ∀ q here, s.place q = some here → 0 < here.pos ∧ here.pos < size

section Places

variable {size : Nat} {s : View Process α} {q : Process} {here : Place α} {c : Nat}

theorem Place.after_version {next : Place α} (after : here.after = some next) :
    next.version = none := by
  unfold Place.after at after
  split at after
  · split at after
    · cases after
    · obtain rfl := Option.some.inj after
      rfl
  · obtain rfl := Option.some.inj after
    rfl

theorem Place.after_inner {next : Place α} (after : here.after = some next)
    (inner : 0 < here.pos ∧ here.pos < size) : 0 < next.pos ∧ next.pos < size := by
  unfold Place.after at after
  split at after
  · split at after
    · cases after
    · obtain rfl := Option.some.inj after
      dsimp only [Place.start]
      omega
  · obtain rfl := Option.some.inj after
    exact inner

/-- A process that was at the node or below, and goes on, still brings its value. -/
theorem pending_after (at_ : s.place q = here.after) {k : Nat} (under : here.pos / 2 ^ k = c)
    (child : 2 ≤ c) : Pending s c := by
  have large : c ≤ here.pos := under ▸ Nat.div_le_self _ _
  unfold Place.after at at_
  split at at_
  · rw [if_neg (by omega)] at at_
    cases k with
    | zero =>
        rw [Nat.pow_zero, Nat.div_one] at under
        exact .first q _ at_ (by rw [← under]; rfl) rfl nofun nofun
    | succ k =>
        refine .below q _ k at_ ?_
        rw [← under, Nat.pow_succ', ← Nat.div_div_eq_div_mul]
        rfl
  · exact .below q _ k at_ under

/-- A load: of the node, or of a child when the node was loaded. -/
structure Load (s : View Process α) (here next : Place α) : Prop where
  pos : next.pos = here.pos
  again : next.again = here.again
  version : next.version = here.version ∨
    here.version = none ∧ next.version = some (s.version here.pos)
  read : ∀ c value, next.read c = some value → value = s.nodes c ∨
    here.version = next.version ∧ here.read c = some value

theorem Load.live {next : Place α} (load : Load s here next) {version : Nat}
    (live : ∀ version, here.version = some version → version = s.version here.pos)
    (isLoaded : next.version = some version) : version = s.version here.pos := by
  rcases load.version with same | ⟨_, now⟩
  · exact live version (same ▸ isLoaded)
  · exact Option.some.inj (isLoaded.symm.trans now)

end Places

section Steps

variable [DecidableEq Process] {combine : α → α → α} {size : Nat} {s : View Process α}
  {q : Process} {here : Place α} {c : Nat}

theorem move_self (s : View Process α) (q : Process) (place : Option (Place α)) :
    (s.move q place).place q = place :=
  Function.update_self ..

theorem move_other (s : View Process α) {q r : Process} (place : Option (Place α))
    (different : r ≠ q) : (s.move q place).place r = s.place r :=
  Function.update_of_ne different ..

/-- A process moves to a place from which it cannot swap at once. -/
theorem Clean.move (clean : Clean s c) {place : Option (Place α)}
    (idle : ∀ next, place = some next → next.version = none) : Clean (s.move q place) c := by
  intro r there at_ parent live
  by_cases same : r = q
  · rw [same, move_self] at at_
    rw [idle there at_] at live
    cases live
  · rw [move_other s place same] at at_
    exact clean r there at_ parent live

/-- A load keeps what is true of a refresh whose values of the children are current. -/
theorem Clean.load (clean : Clean s c) {next : Place α}
    (read : ∀ value, next.read c = some value → value = s.nodes c ∨
      ∃ here, s.place q = some here ∧ here.pos = next.pos ∧ here.version = next.version ∧
        here.read c = some value) : Clean (s.move q (some next)) c := by
  intro r there at_ parent live value isRead
  by_cases same : r = q
  · rw [same, move_self] at at_
    obtain rfl := Option.some.inj at_
    rcases read value isRead with current | ⟨here, before, pos, version, had⟩
    · exact current
    · exact clean q here before (pos.trans parent) (version.trans live) value had
  · rw [move_other s _ same] at at_
    exact clean r there at_ parent live value isRead

theorem Pending.load {next : Place α} (load : Load s here next) (at_ : s.place q = some here)
    (clean : Clean s c → Clean (s.move q (some next)) c) (pending : Pending s c) :
    Pending (s.move q (some next)) c := by
  cases pending with
  | below r there k place under =>
      by_cases same : r = q
      · obtain rfl := Option.some.inj (at_.symm.trans (same ▸ place))
        exact .below q next k (move_self ..) (load.pos ▸ under)
      · exact .below r there k (by rw [move_other s _ same, place]) under
  | first r there place parent once live fresh =>
      by_cases same : r = q
      · obtain rfl := Option.some.inj (at_.symm.trans (same ▸ place))
        refine .first q next (move_self ..) (load.pos.trans parent) (load.again.trans once) ?_ ?_
        · intro version isLoaded
          exact parent ▸ load.live (parent.symm ▸ live) isLoaded
        · intro value isRead
          rcases load.read c value isRead with current | ⟨_, before⟩
          · exact current
          · exact fresh value before
      · exact .first r there (by rw [move_other s _ same, place]) parent once live fresh
  | overtaken r there place parent once isClean =>
      by_cases same : r = q
      · obtain rfl := Option.some.inj (at_.symm.trans (same ▸ place))
        exact .overtaken q next (move_self ..) (load.pos.trans parent) (load.again.trans once)
          (clean isClean)
      · exact .overtaken r there (by rw [move_other s _ same, place]) parent once (clean isClean)
  | second r there place parent twice live isClean =>
      by_cases same : r = q
      · obtain rfl := Option.some.inj (at_.symm.trans (same ▸ place))
        exact .second q next (move_self ..) (load.pos.trans parent) (load.again.trans twice)
          (fun version isLoaded => parent ▸ load.live (parent.symm ▸ live) isLoaded)
          (clean isClean)
      · exact .second r there (by rw [move_other s _ same, place]) parent twice live
          (clean isClean)

/-- A load of a refresh. -/
theorem Invariant.load (inv : Invariant combine size s) {next : Place α}
    (load : Load s here next) (at_ : s.place q = some here) :
    Invariant combine size (s.move q (some next)) := by
  have clean : ∀ {c}, Clean s c → Clean (s.move q (some next)) c := by
    intro c isClean
    refine isClean.load fun value isRead => ?_
    exact (load.read c value isRead).imp_right fun ⟨version, before⟩ =>
      ⟨here, at_, load.pos.symm, version, before⟩
  refine ⟨inv.combined, ?_, ?_, ?_⟩
  · intro c child bound
    rcases inv.known c child bound with current | pending
    · exact .inl ⟨current.used, clean current.clean⟩
    · exact .inr (pending.load load at_ clean)
  · intro r there version place isLoaded
    by_cases same : r = q
    · rw [same, move_self] at place
      obtain rfl := Option.some.inj place
      rw [load.pos]
      rcases load.version with before | ⟨_, now⟩
      · exact inv.notNewer q here version at_ (before ▸ isLoaded)
      · exact Nat.le_of_eq (Option.some.inj (isLoaded.symm.trans now))
    · rw [move_other s _ same] at place
      exact inv.notNewer r there version place isLoaded
  · intro r there place
    by_cases same : r = q
    · rw [same, move_self] at place
      obtain rfl := Option.some.inj place
      rw [load.pos]
      exact inv.inner q here at_
    · rw [move_other s _ same] at place
      exact inv.inner r there place

/-- The places after a process has left its refresh. -/
theorem Invariant.inner_move (inv : Invariant combine size s) (at_ : s.place q = some here)
    {r : Process} {there : Place α} (place : (s.move q here.after).place r = some there) :
    0 < there.pos ∧ there.pos < size := by
  by_cases same : r = q
  · rw [same, move_self] at place
    exact Place.after_inner place (inv.inner q here at_)
  · rw [move_other s _ same] at place
    exact inv.inner r there place

theorem Invariant.notNewer_move (inv : Invariant combine size s) {r : Process} {there : Place α}
    {version : Nat} (place : (s.move q here.after).place r = some there)
    (isLoaded : there.version = some version) :
    r ≠ q ∧ version ≤ s.version there.pos := by
  by_cases same : r = q
  · rw [same, move_self] at place
    rw [Place.after_version place] at isLoaded
    cases isLoaded
  · rw [move_other s _ same] at place
    exact ⟨same, inv.notNewer r there version place isLoaded⟩

/-- A swap that fails: the node was written since it was loaded. -/
theorem Invariant.swapFails (inv : Invariant combine size s) (at_ : s.place q = some here)
    {version : Nat} (loaded : here.version = some version)
    (outdated : version ≠ s.version here.pos) :
    Invariant combine size (s.move q here.after) := by
  have clean : ∀ {c}, Clean s c → Clean (s.move q here.after) c := fun isClean =>
    isClean.move fun _ => Place.after_version
  refine ⟨inv.combined, ?_, fun r there version place isLoaded =>
    (inv.notNewer_move place isLoaded).2, fun r there => inv.inner_move at_⟩
  intro c child bound
  rcases inv.known c child bound with current | pending
  · exact .inl ⟨current.used, clean current.clean⟩
  refine .inr ?_
  cases pending with
  | below r there k place under =>
      by_cases same : r = q
      · obtain rfl := Option.some.inj (at_.symm.trans (same ▸ place))
        exact pending_after (move_self ..) under child
      · exact .below r there k (by rw [move_other s _ same, place]) under
  | first r there place parent once live fresh =>
      by_cases same : r = q
      · obtain rfl := Option.some.inj (at_.symm.trans (same ▸ place))
        exact absurd (parent.symm ▸ live version loaded) outdated
      · exact .first r there (by rw [move_other s _ same, place]) parent once live fresh
  | overtaken r there place parent once isClean =>
      by_cases same : r = q
      · obtain rfl := Option.some.inj (at_.symm.trans (same ▸ place))
        refine .second q (.start here.pos true) ?_ parent rfl nofun (clean isClean)
        rw [move_self, Place.after, once]
        rfl
      · exact .overtaken r there (by rw [move_other s _ same, place]) parent once (clean isClean)
  | second r there place parent twice live isClean =>
      by_cases same : r = q
      · obtain rfl := Option.some.inj (at_.symm.trans (same ▸ place))
        exact absurd (parent.symm ▸ live version loaded) outdated
      · exact .second r there (by rw [move_other s _ same, place]) parent twice live
          (clean isClean)

/-- The process behind a swap, for the nodes the swap was not for. -/
theorem Pending.elsewhere (at_ : s.place q = some here) {next : View Process α}
    (places : next.place = (s.move q here.after).place) (child : 2 ≤ c)
    (notParent : c / 2 ≠ here.pos) (nodes : next.nodes c = s.nodes c)
    (version : next.version (c / 2) = s.version (c / 2)) (clean : Clean s c → Clean next c)
    (pending : Pending s c) : Pending next c := by
  have stays : ∀ {r there}, s.place r = some there → there.pos = c / 2 →
      next.place r = some there := by
    intro r there place parent
    have different : r ≠ q := by
      rintro rfl
      obtain rfl := Option.some.inj (at_.symm.trans place)
      exact notParent parent.symm
    rw [places, move_other s _ different, place]
  cases pending with
  | below r there k place under =>
      by_cases same : r = q
      · obtain rfl := Option.some.inj (at_.symm.trans (same ▸ place))
        exact pending_after (by rw [places, move_self]) under child
      · exact .below r there k (by rw [places, move_other s _ same, place]) under
  | first r there place parent once live fresh =>
      exact .first r there (stays place parent) parent once (version ▸ live) (nodes ▸ fresh)
  | overtaken r there place parent once isClean =>
      exact .overtaken r there (stays place parent) parent once (clean isClean)
  | second r there place parent twice live isClean =>
      exact .second r there (stays place parent) parent twice (version ▸ live) (clean isClean)

section Swap

variable {left right : α}

/-- No swap of a node that has just been swapped can succeed without a new load. -/
theorem Invariant.clean_swap (inv : Invariant combine size s) (parent : c / 2 = here.pos) :
    Clean ((s.swap combine here.pos left right).move q here.after) c := by
  intro r there place isParent live
  obtain ⟨_, older⟩ := inv.notNewer_move (s := s) place live
  dsimp only [View.move, View.swap, View.write] at older
  rw [parent, Function.update_self, isParent, parent] at older
  omega

/-- The node that was swapped for has the current values of its children, or a process brings
them. -/
theorem Invariant.known_swap (inv : Invariant combine size s) (at_ : s.place q = some here)
    (live : here.version = some (s.version here.pos)) (parent : c / 2 = here.pos) (child : 2 ≤ c)
    (bound : c < 2 * size) {value : α} (isRead : here.read c = some value)
    (used : (s.swap combine here.pos left right).used c = value) :
    Current ((s.swap combine here.pos left right).move q here.after) c ∨
      Pending ((s.swap combine here.pos left right).move q here.after) c := by
  have after : Clean ((s.swap combine here.pos left right).move q here.after) c :=
    inv.clean_swap parent
  have nodes : (s.swap combine here.pos left right).nodes c = s.nodes c :=
    Function.update_of_ne (by omega) ..
  have arrives : value = s.nodes c →
      Current ((s.swap combine here.pos left right).move q here.after) c :=
    fun current => ⟨(used.trans current).trans nodes.symm, after⟩
  have cleanArrives : Clean s c →
      Current ((s.swap combine here.pos left right).move q here.after) c := fun isClean =>
    arrives (isClean q here at_ parent.symm (by rw [parent]; exact live) value isRead)
  rcases inv.known c child bound with current | pending
  · exact .inl (cleanArrives current.clean)
  cases pending with
  | below r there k place under =>
      have different : r ≠ q := by
        rintro rfl
        obtain rfl := Option.some.inj (at_.symm.trans place)
        have := Nat.div_le_self here.pos (2 ^ k)
        omega
      exact .inr (.below r there k (by rw [move_other _ _ different]; exact place) under)
  | first r there place isParent once isLive fresh =>
      by_cases same : r = q
      · obtain rfl := Option.some.inj (at_.symm.trans (same ▸ place))
        exact .inl (arrives (fresh value isRead))
      · exact .inr (.overtaken r there (by rw [move_other _ _ same]; exact place) isParent once
          after)
  | overtaken r there place isParent once isClean => exact .inl (cleanArrives isClean)
  | second r there place isParent twice isLive isClean => exact .inl (cleanArrives isClean)

/-- A swap that succeeds: the node was not written since it was loaded. -/
theorem Invariant.swap (inv : Invariant combine size s) (at_ : s.place q = some here)
    (live : here.version = some (s.version here.pos))
    (readLeft : here.read (2 * here.pos) = some left)
    (readRight : here.read (2 * here.pos + 1) = some right) :
    Invariant combine size ((s.swap combine here.pos left right).move q here.after) := by
  obtain ⟨positive, isInner⟩ := inv.inner q here at_
  have usedLeft : (s.swap combine here.pos left right).used (2 * here.pos) = left := by
    dsimp only [View.swap]
    rw [Function.update_of_ne (by omega), Function.update_self]
  have usedRight : (s.swap combine here.pos left right).used (2 * here.pos + 1) = right :=
    Function.update_self ..
  have usedOther :
      ∀ c, c / 2 ≠ here.pos → (s.swap combine here.pos left right).used c = s.used c := by
    intro c other
    dsimp only [View.swap]
    rw [Function.update_of_ne (by omega), Function.update_of_ne (by omega)]
  refine ⟨?_, ?_, ?_, fun r there => inv.inner_move (s := s) at_⟩
  · intro pos isPositive isBound
    by_cases same : pos = here.pos
    · rw [same]
      exact (Function.update_self ..).trans (congrArg₂ combine usedLeft.symm usedRight.symm)
    · refine (Function.update_of_ne same ..).trans ((inv.combined pos isPositive isBound).trans ?_)
      exact congrArg₂ combine (usedOther _ (by omega)).symm (usedOther _ (by omega)).symm
  · intro c child bound
    by_cases parent : c / 2 = here.pos
    · rcases (by omega : c = 2 * here.pos ∨ c = 2 * here.pos + 1) with rfl | rfl
      · exact inv.known_swap at_ live parent child bound readLeft usedLeft
      · exact inv.known_swap at_ live parent child bound readRight usedRight
    by_cases same : here.pos = c
    · exact .inr (pending_after (k := 0) (move_self ..) (by rw [Nat.pow_zero, Nat.div_one, same])
        child)
    have nodes : (s.swap combine here.pos left right).nodes c = s.nodes c :=
      Function.update_of_ne (Ne.symm same) ..
    have version : (s.swap combine here.pos left right).version (c / 2) = s.version (c / 2) :=
      Function.update_of_ne parent ..
    have clean : Clean s c →
        Clean ((s.swap combine here.pos left right).move q here.after) c := by
      intro isClean r there place isParent isLive value isRead
      have before := (isClean.move (q := q) fun _ => Place.after_version) r there place isParent
        (isLive.trans (congrArg some version)) value isRead
      exact before.trans nodes.symm
    rcases inv.known c child bound with current | pending
    · exact .inl ⟨(usedOther c parent).trans (current.used.trans nodes.symm), clean current.clean⟩
    · exact .inr (pending.elsewhere at_ rfl child parent nodes version clean)
  · intro r there version place isLoaded
    refine Nat.le_trans (inv.notNewer_move (s := s) place isLoaded).2 ?_
    dsimp only [View.move, View.swap, View.write]
    by_cases same : there.pos = here.pos
    · rw [same, Function.update_self]
      omega
    · exact Nat.le_of_eq (Function.update_of_ne same ..).symm

end Swap

/-- A process outside the refreshes stores to a leaf and starts at the node above. -/
theorem Invariant.store (inv : Invariant combine size s) (outside : s.place q = none) {leaf : Nat}
    (isLeaf : size ≤ leaf) (bound : leaf < 2 * size) (large : 2 ≤ leaf) (value : α) :
    Invariant combine size ((s.write leaf value).move q (some (.start (leaf / 2) false))) := by
  have version : ∀ {pos}, pos < size → (s.write leaf value).version pos = s.version pos :=
    fun isInner => Function.update_of_ne (by omega) ..
  have others : ∀ {r there}, s.place r = some there →
      ((s.write leaf value).move q (some (.start (leaf / 2) false))).place r = some there := by
    intro r there place
    have different : r ≠ q := by
      rintro rfl
      exact absurd (outside.symm.trans place) nofun
    rw [move_other _ _ different]
    exact place
  refine ⟨?_, ?_, ?_, ?_⟩
  · intro pos positive isInner
    exact (Function.update_of_ne (by omega) ..).trans (inv.combined pos positive isInner)
  · intro c child isNode
    by_cases same : c = leaf
    · exact .inr (.first q _ (move_self ..) (by rw [same]; rfl) rfl nofun nofun)
    have nodes : (s.write leaf value).nodes c = s.nodes c := Function.update_of_ne same ..
    have live : (s.write leaf value).version (c / 2) = s.version (c / 2) := version (by omega)
    have clean : Clean s c →
        Clean ((s.write leaf value).move q (some (.start (leaf / 2) false))) c := by
      intro isClean r there place isParent isLive word isRead
      have idle : ∀ next : Place α, some (.start (leaf / 2) false) = some next →
          next.version = none := by
        rintro next ⟨⟩
        rfl
      have before := (isClean.move (q := q) idle) r there place isParent
        (isLive.trans (congrArg some live)) word isRead
      exact before.trans nodes.symm
    rcases inv.known c child isNode with current | pending
    · exact .inl ⟨current.used.trans nodes.symm, clean current.clean⟩
    refine .inr ?_
    cases pending with
    | below r there k place under => exact .below r there k (others place) under
    | first r there place parent once isLive fresh =>
        exact .first r there (others place) parent once (live ▸ isLive) (nodes ▸ fresh)
    | overtaken r there place parent once isClean =>
        exact .overtaken r there (others place) parent once (clean isClean)
    | second r there place parent twice isLive isClean =>
        exact .second r there (others place) parent twice (live ▸ isLive) (clean isClean)
  · intro r there loaded place isLoaded
    by_cases same : r = q
    · rw [same, move_self] at place
      obtain rfl := Option.some.inj place
      cases isLoaded
    · rw [move_other _ _ same] at place
      have older := inv.notNewer r there loaded place isLoaded
      have isInner := (inv.inner r there place).2
      exact Nat.le_trans older (Nat.le_of_eq (version isInner).symm)
  · intro r there place
    by_cases same : r = q
    · rw [same, move_self] at place
      obtain rfl := Option.some.inj place
      dsimp only [Place.start]
      omega
    · rw [move_other _ _ same] at place
      exact inv.inner r there place

end Steps

/-! ## Between the updates -/

section Quiescent

variable {combine : α → α → α} {size : Nat} {s : View Process α}

/-- Every inner node is the combination of its children. -/
def Exact (combine : α → α → α) (size : Nat) (nodes : Nat → α) : Prop :=
  ∀ pos, 0 < pos → pos < size → nodes pos = combine (nodes (2 * pos)) (nodes (2 * pos + 1))

theorem Pending.place_ne {c : Nat} (pending : Pending s c) : ∃ q, s.place q ≠ none := by
  cases pending with
  | below q here k at_ | first q here at_ | overtaken q here at_ | second q here at_ =>
      exact ⟨q, by rw [at_]; nofun⟩

/-- When no refresh is under way. -/
theorem Invariant.exact (inv : Invariant combine size s) (quiescent : ∀ q, s.place q = none) :
    Exact combine size s.nodes := by
  have current : ∀ c, 2 ≤ c → c < 2 * size → s.used c = s.nodes c := by
    intro c child bound
    rcases inv.known c child bound with current | pending
    · exact current.used
    · obtain ⟨q, busy⟩ := pending.place_ne
      exact absurd (quiescent q) busy
  intro pos positive isInner
  rw [inv.combined pos positive isInner, current _ (by omega) (by omega),
    current _ (by omega) (by omega)]

/-- A tree that is exact, with no refresh under way. -/
theorem Exact.invariant (exact : Exact combine size s.nodes) (used : s.used = s.nodes)
    (quiescent : ∀ q, s.place q = none) : Invariant combine size s where
  combined pos positive isInner := by rw [used]; exact exact pos positive isInner
  known c _ _ := .inl ⟨congrFun used c, fun q _ at_ => absurd ((quiescent q).symm.trans at_) nofun⟩
  notNewer q _ _ at_ := absurd ((quiescent q).symm.trans at_) nofun
  inner q _ at_ := absurd ((quiescent q).symm.trans at_) nofun

end Quiescent

/-! ## Selections -/

section Select

variable {combine : α → α → α} {size : Nat} {nodes : Nat → α}

/-- In an exact tree of minima a node is below every node under it. -/
theorem Exact.le_under (exact : Exact combine size nodes) (le : α → α → Prop) (refl : ∀ a, le a a)
    (trans : ∀ {a b c}, le a b → le b c → le a c) (left : ∀ a b, le (combine a b) a)
    (right : ∀ a b, le (combine a b) b) (k : Nat) {c : Nat} (isNode : c < 2 * size)
    (positive : 0 < c / 2 ^ k) : le (nodes (c / 2 ^ k)) (nodes c) := by
  induction k with
  | zero => simpa using refl (nodes c)
  | succ k inductionHypothesis =>
      rw [Nat.pow_succ, ← Nat.div_div_eq_div_mul] at positive ⊢
      have smaller := Nat.div_le_self c (2 ^ k)
      refine trans ?_ (inductionHypothesis (by omega))
      rw [exact (c / 2 ^ k / 2) positive (by omega)]
      rcases Nat.mod_two_eq_zero_or_one (c / 2 ^ k) with even | odd
      · have same : 2 * (c / 2 ^ k / 2) = c / 2 ^ k := by omega
        rw [same]
        exact left _ _
      · have same : 2 * (c / 2 ^ k / 2) + 1 = c / 2 ^ k := by omega
        rw [same]
        exact right _ _

/-- In an exact tree whose nodes select one of their children every node has the value of a leaf
under it. -/
theorem Exact.exists_leaf (exact : Exact combine size nodes)
    (select : ∀ a b, combine a b = a ∨ combine a b = b) {pos : Nat} (positive : 0 < pos)
    (isNode : pos < 2 * size) :
    ∃ leaf, size ≤ leaf ∧ leaf < 2 * size ∧ nodes pos = nodes leaf := by
  induction remaining : 2 * size - pos using Nat.strongRecOn generalizing pos with
  | ind n inductionHypothesis =>
      by_cases isInner : pos < size
      · rw [exact pos positive isInner]
        rcases select (nodes (2 * pos)) (nodes (2 * pos + 1)) with isLeft | isRight
        · rw [isLeft]
          exact inductionHypothesis _ (by omega) (by omega) (by omega) rfl
        · rw [isRight]
          exact inductionHypothesis _ (by omega) (by omega) (by omega) rfl
      · exact ⟨pos, by omega, isNode, rfl⟩

end Select

end Lupin.DoubleRefresh
