import Mathlib.Logic.Function.Basic
import Mathlib.Order.Nat
import Mathlib.Tactic.Common

/-!
# Locks that are handed over by compare and swap

One word says whether a lock is free, under a key that is used only once, or taken by a
process. Any process may load the free word, choose another one and swap it in. What makes
this safe is kept here apart from any particular lock: a swap that can still succeed
chooses a process that does not leave before the word changes.
-/

namespace Lupin.Handover

universe u v

inductive Word (Key : Type u) (Process : Type v) where
  | free (key : Key)
  | taken (owner : Process)
deriving DecidableEq

/-- What a process has done and is bound to do. -/
structure Stance (Key : Type u) (Process : Type v) where
  /-- It has the lock and has not stored a free word yet. -/
  holds : Bool
  /-- It looks at the word again before it leaves. -/
  attends : Bool
  /-- It does not leave while the word is free under this key. -/
  waits : Key → Bool
  /-- The free word it has loaded, and whom it has chosen to be swapped in for it. -/
  seen : Option Key
  choice : Option Process
  /-- A later key is out, and the free word with it comes next. -/
  storing : Bool
  attends_of_waits : ∀ key, waits key = true → attends = true
  holds_of_storing : storing = true → holds = true

variable {Key : Type u} {Process : Type v}

/-- Keys are ranked by when they come up; `latest` is the rank that is out. -/
structure Invariant (rank : Key → Nat) (word : Word Key Process) (latest : Nat)
    (stance : Process → Stance Key Process) : Prop where
  current : ∀ key, word = .free key → rank key = latest
  holder : ∀ p, (stance p).holds = true → word = .taken p
  recorded : ∀ p, word = .taken p → (stance p).attends = true
  seen : ∀ q key, (stance q).seen = some key → rank key ≤ latest
  /-- Every loaded free word is older than the one about to be stored. -/
  older : ∀ q key p, (stance q).seen = some key → (stance p).storing = true → rank key < latest
  /-- A swap that can still succeed chooses a process that does not leave before it. -/
  pending : ∀ q key t, (stance q).seen = some key → (stance q).choice = some t →
    word = .free key → (stance t).waits key = true

section

variable {rank : Key → Nat} {word : Word Key Process} {latest : Nat}
  {stance : Process → Stance Key Process} {p q : Process}

/-- Only one process has the lock at a time. -/
theorem Invariant.holder_unique (inv : Invariant rank word latest stance)
    (first : (stance p).holds = true) (second : (stance q).holds = true) : p = q :=
  Word.taken.inj ((inv.holder p first).symm.trans (inv.holder q second))

/-- While the word is free nobody has the lock. -/
theorem Invariant.not_holds (inv : Invariant rank word latest stance) {key : Key}
    (free : word = .free key) (p : Process) : (stance p).holds = false := by
  cases held : (stance p).holds with
  | false => rfl
  | true => exact absurd (free.symm.trans (inv.holder p held)) (by simp)

/-- A process that does not look at the word again is not the owner. -/
theorem Invariant.not_taken (inv : Invariant rank word latest stance)
    (unattended : (stance p).attends = false) : word ≠ .taken p := by
  intro taken
  rw [inv.recorded p taken] at unattended
  exact absurd unattended.symm Bool.false_ne_true

theorem Stance.storing_eq_false {after : Stance Key Process} (outside : after.holds = false) :
    after.storing = false := by
  cases storing : after.storing with
  | false => rfl
  | true => exact absurd (after.holds_of_storing storing) (by simp [outside])

end

variable [DecidableEq Process]

/-- What a process owes when it changes its stance and the word stays as it is. -/
structure Move (rank : Key → Nat) (word : Word Key Process) (latest : Nat)
    (stance : Process → Stance Key Process) (p : Process) (after : Stance Key Process) :
    Prop where
  holds : after.holds = true → word = .taken p
  attends : word = .taken p → after.attends = true
  seen : ∀ key, after.seen = some key → word = .free key ∨ (stance p).seen = some key
  storing : after.storing = false
  choice : ∀ key t, after.seen = some key → after.choice = some t → word = .free key →
    (Function.update stance p after t).waits key = true
  waits : ∀ key, word = .free key → (stance p).waits key = true → after.waits key = true

section

variable {rank : Key → Nat} {word : Word Key Process} {latest : Nat}
  {stance : Process → Stance Key Process} {p q : Process} {after : Stance Key Process}

/-- A move to a stance without a loaded word. -/
theorem Move.plain (holds : after.holds = true → word = .taken p)
    (attends : word = .taken p → after.attends = true) (noWord : after.seen = none)
    (storing : after.storing = false)
    (waits : ∀ key, word = .free key → (stance p).waits key = true → after.waits key = true) :
    Move rank word latest stance p after where
  holds := holds
  attends := attends
  seen key loaded := by simp [noWord] at loaded
  storing := storing
  choice key t loaded := by simp [noWord] at loaded
  waits := waits

theorem waits_update {t : Process} {key : Key} (waiting : (stance t).waits key = true)
    (keeps : (stance p).waits key = true → after.waits key = true) :
    (Function.update stance p after t).waits key = true := by
  rcases eq_or_ne t p with rfl | different
  · rw [Function.update_self]
    exact keeps waiting
  · rwa [Function.update_of_ne different]

theorem Invariant.move (inv : Invariant rank word latest stance)
    (change : Move rank word latest stance p after) :
    Invariant rank word latest (Function.update stance p after) where
  current := inv.current
  holder q held := by
    rcases eq_or_ne q p with rfl | different
    · exact change.holds (by rwa [Function.update_self] at held)
    · exact inv.holder q (by rwa [Function.update_of_ne different] at held)
  recorded q taken := by
    rcases eq_or_ne q p with rfl | different
    · rw [Function.update_self]
      exact change.attends taken
    · rw [Function.update_of_ne different]
      exact inv.recorded q taken
  seen q key loaded := by
    rcases eq_or_ne q p with rfl | different
    · rcases change.seen key (by rwa [Function.update_self] at loaded) with free | before
      · exact (inv.current key free).le
      · exact inv.seen q key before
    · exact inv.seen q key (by rwa [Function.update_of_ne different] at loaded)
  older q key r loaded storing := by
    have other : r ≠ p := by
      rintro rfl
      rw [Function.update_self, change.storing] at storing
      exact absurd storing Bool.false_ne_true
    rw [Function.update_of_ne other] at storing
    rcases eq_or_ne q p with rfl | different
    · rcases change.seen key (by rwa [Function.update_self] at loaded) with free | before
      · exact absurd ((stance r).holds_of_storing storing) (by simp [inv.not_holds free r])
      · exact inv.older q key r before storing
    · exact inv.older q key r (by rwa [Function.update_of_ne different] at loaded) storing
  pending q key t loaded chosen free := by
    rcases eq_or_ne q p with rfl | different
    · rw [Function.update_self] at loaded chosen
      exact change.choice key t loaded chosen free
    · rw [Function.update_of_ne different] at loaded chosen
      exact waits_update (inv.pending q key t loaded chosen free) (change.waits key free)

/-- Before a process asks for the lock, and after it has given it back, it owes nothing. -/
theorem Invariant.approach (inv : Invariant rank word latest stance)
    (unattended : (stance p).attends = false) (outside : after.holds = false)
    (noWord : after.seen = none) : Move rank word latest stance p after := by
  refine .plain ?_ (fun taken => absurd taken (inv.not_taken unattended)) noWord
    (Stance.storing_eq_false outside) fun key _ waiting => ?_
  · intro held
    simp [outside] at held
  · exact absurd ((stance p).attends_of_waits key waiting) (by simp [unattended])

/-- A process that waits whatever the word is owes nothing. -/
theorem Move.linger (outside : after.holds = false) (attends : after.attends = true)
    (noWord : after.seen = none) (waits : ∀ key, after.waits key = true) :
    Move rank word latest stance p after := by
  refine .plain ?_ (fun _ => attends) noWord (Stance.storing_eq_false outside)
    fun key _ _ => waits key
  intro held
  simp [outside] at held

/-- The owner enters, or goes on before it publishes a later key. -/
theorem Move.held (taken : word = .taken p) (attends : after.attends = true)
    (noWord : after.seen = none) (storing : after.storing = false) :
    Move rank word latest stance p after :=
  .plain (fun _ => taken) (fun _ => attends) noWord storing
    fun _ free _ => nomatch taken.symm.trans free

/-- A process loads the free word, for which it has chosen nobody yet. -/
theorem Move.load {key : Key} (free : word = .free key) (outside : after.holds = false)
    (loaded : after.seen = some key) (nobody : after.choice = none)
    (waits : (stance p).waits key = true → after.waits key = true) :
    Move rank word latest stance p after where
  holds held := by simp [outside] at held
  attends taken := nomatch free.symm.trans taken
  seen key' again := .inl (Option.some.inj (loaded.symm.trans again) ▸ free)
  storing := Stance.storing_eq_false outside
  choice key' t _ chosen := by simp [nobody] at chosen
  waits key' free' := by
    obtain rfl := Word.free.inj (free.symm.trans free')
    exact waits

/-- A process chooses somebody for the word it has loaded. -/
theorem Invariant.choose (inv : Invariant rank word latest stance) (key : Key) (t : Process)
    (before : (stance p).seen = some key) (outside : after.holds = false)
    (attends : (stance p).attends = true → after.attends = true)
    (loaded : after.seen = some key) (chosen : after.choice = some t)
    (keeps : ∀ key, (stance p).waits key = true → after.waits key = true)
    (waits : word = .free key → (stance t).waits key = true) :
    Move rank word latest stance p after where
  holds held := by simp [outside] at held
  attends taken := attends (inv.recorded p taken)
  seen key' again := .inr (before.trans (loaded.symm.trans again))
  storing := Stance.storing_eq_false outside
  choice key' t' again chosen' free := by
    obtain rfl := Option.some.inj (loaded.symm.trans again)
    obtain rfl := Option.some.inj (chosen.symm.trans chosen')
    exact waits_update (waits free) (keeps key)
  waits key' _ := keeps key'

/-- A choice is swapped in: the chosen process is the owner and will see it. -/
theorem Invariant.promote (inv : Invariant rank word latest stance) {key : Key} {t : Process}
    (free : word = .free key) (loaded : (stance q).seen = some key)
    (chosen : (stance q).choice = some t) (holds : after.holds = false)
    (noWord : after.seen = none)
    (attends : (stance q).attends = true → after.attends = true) :
    Invariant rank (.taken t) latest (Function.update stance q after) := by
  have nobody : ∀ p, (Function.update stance q after p).holds = false := by
    intro p
    rcases eq_or_ne p q with rfl | different
    · rwa [Function.update_self]
    · rw [Function.update_of_ne different]
      exact inv.not_holds free p
  have elsewhere : ∀ {p key}, (Function.update stance q after p).seen = some key → p ≠ q := by
    rintro p key loaded rfl
    simp [noWord] at loaded
  have waiting := inv.pending q key t loaded chosen free
  refine ⟨nofun, ?_, ?_, ?_, ?_, nofun⟩
  · intro p held
    simp [nobody p] at held
  · intro p taken
    obtain rfl := Word.taken.inj taken
    have attending := (stance t).attends_of_waits key waiting
    rcases eq_or_ne t q with rfl | different
    · rw [Function.update_self]
      exact attends attending
    · rwa [Function.update_of_ne different]
  · intro p key' loaded'
    exact inv.seen p key' (by rwa [Function.update_of_ne (elsewhere loaded')] at loaded')
  · intro p key' r _ storing
    have held := (Function.update stance q after r).holds_of_storing storing
    simp [nobody r] at held

/-- The holder publishes a later key: every loaded free word is an old one. -/
theorem Invariant.publish (inv : Invariant rank word latest stance) {next : Nat}
    (held : (stance p).holds = true) (later : latest < next) (attends : after.attends = true)
    (noWord : after.seen = none) :
    Invariant rank word next (Function.update stance p after) := by
  have taken := inv.holder p held
  have loadedBefore : ∀ {q key}, (Function.update stance p after q).seen = some key →
      rank key ≤ latest := by
    intro q key loaded
    have other : q ≠ p := by
      rintro rfl
      simp [noWord] at loaded
    exact inv.seen q key (by rwa [Function.update_of_ne other] at loaded)
  refine ⟨fun key free => ?_, ?_, ?_, ?_, ?_, fun _ key _ _ _ free => ?_⟩
  · exact absurd (taken.symm.trans free) (by simp)
  · intro q heldAfter
    rcases eq_or_ne q p with rfl | different
    · exact taken
    · exact inv.holder q (by rwa [Function.update_of_ne different] at heldAfter)
  · intro q recorded
    obtain rfl := Word.taken.inj (taken.symm.trans recorded)
    rwa [Function.update_self]
  · exact fun q key loaded => le_trans (loadedBefore loaded) later.le
  · exact fun q key r loaded _ => lt_of_le_of_lt (loadedBefore loaded) later
  · exact absurd (taken.symm.trans free) (by simp)

/-- The holder stores the free word under the published key: nobody has loaded it yet. -/
theorem Invariant.release (inv : Invariant rank word latest stance) {key : Key}
    (storing : (stance p).storing = true) (published : rank key = latest)
    (holds : after.holds = false) (noWord : after.seen = none) :
    Invariant rank (.free key) latest (Function.update stance p after) := by
  have held := (stance p).holds_of_storing storing
  have nobody : ∀ q, (Function.update stance p after q).holds = false := by
    intro q
    rcases eq_or_ne q p with rfl | different
    · rwa [Function.update_self]
    · rw [Function.update_of_ne different]
      cases other : (stance q).holds with
      | false => rfl
      | true => exact absurd (inv.holder_unique other held) different
  have before : ∀ {q key}, (Function.update stance p after q).seen = some key →
      (stance q).seen = some key := by
    intro q key loaded
    have other : q ≠ p := by
      rintro rfl
      simp [noWord] at loaded
    rwa [Function.update_of_ne other] at loaded
  refine ⟨?_, ?_, nofun, ?_, ?_, ?_⟩
  · intro key' same
    obtain rfl := Word.free.inj same
    exact published
  · intro q heldAfter
    simp [nobody q] at heldAfter
  · exact fun q key' loaded => inv.seen q key' (before loaded)
  · intro q key' r _ storingAfter
    have heldAfter := (Function.update stance p after r).holds_of_storing storingAfter
    simp [nobody r] at heldAfter
  · intro q key' t loaded _ same
    obtain rfl := Word.free.inj same
    have older := inv.older q _ p (before loaded) storing
    omega

end

end Lupin.Handover
