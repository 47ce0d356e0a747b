import Lupin.Queue.Futex

/-!
# Steps of waiters and wakers

What one step of a task can do, and the lock and the counter of every bucket along a step.
-/

namespace Lupin.Queue.Futex

open Lupin.Holders Lupin.Transition Lupin.Queue.WakeKind

variable {Thread Bucket : Type} [DecidableEq Thread] [DecidableEq Bucket]
variable (hash : BitVec 64 → Bucket)

/-! ## Steps -/

/-- The steps that change nothing but the place of the task. -/
inductive Moves (s : State Thread Bucket) (t : Thread) :
    Pc Thread Bucket → Pc Thread Bucket → Prop where
  | run {wait} : Moves s t (.asleep wait) (.readLockPtr wait)
  | woken {wait} (gone : s.lockPtr t = none) : Moves s t (.readLockPtr wait) .idle
  | read {wait b} (ptr : s.lockPtr t = some b) :
      Moves s t (.readLockPtr wait) (.lockQueue wait b)
  | retry {wait b} : Moves s t (.recheck wait b) (.unlockRetry wait b)
  | unqueue {wait b} (ptr : s.lockPtr t = some b) : Moves s t (.recheck wait b) (.del wait b)
  | warnOwn {wait b} (warns : s.queuedIn t = none) :
      Moves s t (.del wait b) (.unlockUnqueued wait b)
  | call {offset wt} : Moves s t .idle (.pending ⟨offset, wt, s.time⟩)
  | pending {wake} : Moves s t (.pending wake) (.lockWake wake)
  | first {wake} : Moves s t (.first wake) (.visit wake (s.chain (hash wake.offset)).head?)
  | last {wake} : Moves s t (.visit wake none) (.unlockWake wake)
  | visit {wake this} : Moves s t (.visit wake (some this))
      (.examine wake this (nextIn (s.chain (hash wake.offset)) this))
  | pass {wake this next} (other : s.key this ≠ wake.offset) :
      Moves s t (.examine wake this next) (.visit wake next)
  | hit {wake this next} (same : s.key this = wake.offset) :
      Moves s t (.examine wake this next) (.mark wake this next)
  | warnMark {wake this next} (warns : s.queuedIn this = none) :
      Moves s t (.mark wake this next) (.clearLockPtr wake this next)

/-- The steps that take a lock. -/
inductive Acquires : Pc Thread Bucket → Bucket → Pc Thread Bucket → Prop where
  | wait {wait} : Acquires (.lockBucket wait) (hash wait.offset) (.load wait)
  | unqueue {wait b} : Acquires (.lockQueue wait b) b (.recheck wait b)
  | wake {wake} : Acquires (.lockWake wake) (hash wake.offset) (.first wake)

/-- The steps that release a lock, the last one of `wake_proc` apart. -/
inductive Releases : Pc Thread Bucket → Bucket → Pc Thread Bucket → Prop where
  | mismatch {wait} : Releases (.unlockMismatch wait) (hash wait.offset) (.decMismatch wait)
  | queued {wait} : Releases (.unlockQueued wait) (hash wait.offset) (.asleep wait)
  | retry {wait b} : Releases (.unlockRetry wait b) b (.readLockPtr wait)
  | expired {wait b} : Releases (.unlockUnqueued wait b) b .idle
  | again {wait b} : Releases (.unlockUnqueued wait b) b (.waitersInc wait)

/-- The decrements of a counter. -/
inductive Decs : Pc Thread Bucket → Bucket → Pc Thread Bucket → Prop where
  | mismatch {wait} : Decs (.decMismatch wait) (hash wait.offset) .idle
  | unqueued {wait b hb} : Decs (.decUnqueued wait b hb) hb (.unlockUnqueued wait b)
  | marked {wake hb this next} :
      Decs (.decMarked wake hb this next) hb (.clearLockPtr wake this next)

/-- The removals of the entry of a task from the list of a bucket. -/
inductive Removes (t : Thread) : Pc Thread Bucket → Thread → Bucket → Pc Thread Bucket → Prop where
  | own {wait b hb} : Removes t (.del wait b) t hb (.decUnqueued wait b hb)
  | mark {wake hb this next} :
      Removes t (.mark wake this next) this hb (.decMarked wake hb this next)

/-- Everything that an action of a task can do, the clock apart. -/
inductive Step (s : State Thread Bucket) (t : Thread) : State Thread Bucket → Prop where
  | move {p q} (here : s.pc t = p) (moves : Moves hash s t p q) : Step s t (s.goto t q)
  | store {offset value : BitVec 64} : Step s t { s with
      word := Function.update s.word offset value
      stores := ⟨t, offset, value, s.time⟩ :: s.stores }
  | enter {wait : Wait} (here : s.pc t = .idle) :
      Step s t ({ s with key := Function.update s.key t wait.offset }.goto t (.waitersInc wait))
  | inc {wait} (here : s.pc t = .waitersInc wait) :
      Step s t ((s.addWaiters (hash wait.offset) 1).goto t (.setLockPtr wait))
  | point {wait} (here : s.pc t = .setLockPtr wait) :
      Step s t ((s.setPtr t (some (hash wait.offset))).goto t (.lockBucket wait))
  | acquire {p b q} (here : s.pc t = p) (acquires : Acquires hash p b q)
      (free : s.lock b = none) : Step s t ((s.setLock b (some t)).goto t q)
  | compare {wait} (here : s.pc t = .load wait) :
      Step s t ({ s with comparedAt := Function.update s.comparedAt t s.time }.goto t
        (if s.word wait.offset = wait.value then .queue wait else .unlockMismatch wait))
  | enqueue {wait prio} (here : s.pc t = .queue wait) :
      Step s t (({ s with prio }.setChain (hash wait.offset)
        (plistAdd prio t (s.chain (hash wait.offset)))).goto t (.unlockQueued wait))
  | release {p b q} (here : s.pc t = p) (releases : Releases hash p b q) :
      Step s t ((s.setLock b none).goto t q)
  | dec {p b q} (here : s.pc t = p) (decs : Decs hash p b q) :
      Step s t ((s.addWaiters b (-1)).goto t q)
  | remove {p x b q} (here : s.pc t = p) (removes : Removes t p x b q)
      (queued : s.queuedIn x = some b) :
      Step s t ((s.setChain b ((s.chain b).erase x)).goto t q)
  | clear {wake this next} (here : s.pc t = .clearLockPtr wake this next) :
      Step s t ((s.setPtr this none).goto t
        (if wake.wt = .next then .unlockWake wake else .visit wake next))
  | skip {wake} (here : s.pc t = .pending wake) (zero : s.waiters (hash wake.offset) = 0) :
      Step s t ({ s with woken := (t, wake) :: s.woken }.goto t .idle)
  | finish {wake} (here : s.pc t = .unlockWake wake) :
      Step s t (({ s with woken := (t, wake) :: s.woken }.setLock (hash wake.offset) none).goto t
        .idle)

section

variable {hash} {s next : State Thread Bucket} {t : Thread}

theorem step_of_advance {expired : Bool} (taken : s.advance hash t expired = some next) :
    Step hash s t next := by
  unfold State.advance at taken
  generalize here : s.pc t = p at taken
  cases p with
  | idle => cases taken
  | waitersInc wait =>
      obtain rfl := Option.some.inj taken
      exact .inc here
  | setLockPtr wait =>
      obtain rfl := Option.some.inj taken
      exact .point here
  | lockBucket wait =>
      obtain ⟨free, same⟩ := Option.ite_none_right_eq_some.mp taken
      obtain rfl := Option.some.inj same
      exact .acquire here .wait free
  | load wait =>
      obtain rfl := Option.some.inj taken
      exact .compare here
  | unlockMismatch wait =>
      obtain rfl := Option.some.inj taken
      exact .release here .mismatch
  | decMismatch wait =>
      obtain rfl := Option.some.inj taken
      exact .dec here .mismatch
  | queue wait =>
      obtain rfl := Option.some.inj taken
      exact .enqueue here
  | unlockQueued wait =>
      obtain rfl := Option.some.inj taken
      exact .release here .queued
  | asleep wait =>
      obtain rfl := Option.some.inj taken
      exact .move here .run
  | readLockPtr wait =>
      dsimp only at taken
      split at taken
      next gone =>
        obtain rfl := Option.some.inj taken
        exact .move here (.woken gone)
      next b ptr =>
        obtain rfl := Option.some.inj taken
        exact .move here (.read ptr)
  | lockQueue wait b =>
      obtain ⟨free, same⟩ := Option.ite_none_right_eq_some.mp taken
      obtain rfl := Option.some.inj same
      exact .acquire here .unqueue free
  | recheck wait b =>
      obtain rfl := Option.some.inj taken
      split
      · exact .move here .retry
      next same => exact .move here (.unqueue (not_not.mp same))
  | unlockRetry wait b =>
      obtain rfl := Option.some.inj taken
      exact .release here .retry
  | del wait b =>
      dsimp only at taken
      split at taken
      next warns =>
        obtain rfl := Option.some.inj taken
        exact .move here (.warnOwn warns)
      next hb queued =>
        obtain rfl := Option.some.inj taken
        exact .remove here .own queued
  | decUnqueued wait b hb =>
      obtain rfl := Option.some.inj taken
      exact .dec here .unqueued
  | unlockUnqueued wait b =>
      obtain rfl := Option.some.inj taken
      split
      · exact .release here .expired
      · exact .release here .again
  | pending wake =>
      dsimp only at taken
      split at taken
      next zero =>
        obtain rfl := Option.some.inj taken
        exact .skip here zero
      next =>
        obtain rfl := Option.some.inj taken
        exact .move here .pending
  | lockWake wake =>
      obtain ⟨free, same⟩ := Option.ite_none_right_eq_some.mp taken
      obtain rfl := Option.some.inj same
      exact .acquire here .wake free
  | first wake =>
      obtain rfl := Option.some.inj taken
      exact .move here .first
  | visit wake this =>
      cases this with
      | none =>
          obtain rfl := Option.some.inj taken
          exact .move here .last
      | some this =>
          obtain rfl := Option.some.inj taken
          exact .move here .visit
  | examine wake this next =>
      obtain rfl := Option.some.inj taken
      split
      next same => exact .move here (.hit same)
      next other => exact .move here (.pass other)
  | mark wake this next =>
      dsimp only at taken
      split at taken
      next warns =>
        obtain rfl := Option.some.inj taken
        exact .move here (.warnMark warns)
      next hb queued =>
        obtain rfl := Option.some.inj taken
        exact .remove here .mark queued
  | decMarked wake hb this next =>
      obtain rfl := Option.some.inj taken
      exact .dec here .marked
  | clearLockPtr wake this next =>
      obtain rfl := Option.some.inj taken
      exact .clear here
  | unlockWake wake =>
      obtain rfl := Option.some.inj taken
      exact .finish here

theorem step_of_act {action : Action Thread} (taken : s.act hash action = some next) :
    ∃ t, Step hash s t next := by
  cases action with
  | wait t wait =>
      simp only [State.act] at taken
      split at taken
      next here =>
        obtain rfl := Option.some.inj taken
        exact ⟨t, .enter here⟩
      next => cases taken
  | store t offset value =>
      simp only [State.act] at taken
      split at taken
      next here =>
        obtain rfl := Option.some.inj taken
        exact ⟨t, .store⟩
      next => cases taken
  | wake t offset wt =>
      simp only [State.act] at taken
      split at taken
      next here =>
        obtain rfl := Option.some.inj taken
        exact ⟨t, .move here .call⟩
      next => cases taken
  | advance t expired => exact ⟨t, step_of_advance taken⟩

/-! ## The locks -/

omit [DecidableEq Bucket] in
theorem Moves.held_eq {p q : Pc Thread Bucket} (moves : Moves hash s t p q) :
    q.held hash = p.held hash := by
  cases moves <;> rfl

omit [DecidableEq Bucket] in
theorem Moves.transit_eq {p q : Pc Thread Bucket} (moves : Moves hash s t p q) :
    q.transit hash = p.transit hash := by
  cases moves <;> rfl

/-- The owner of each lock is the task that is between taking and releasing it. -/
def Locked (hash : BitVec 64 → Bucket) (s : State Thread Bucket) : Prop :=
  Agrees s.lock (Pc.held hash ∘ s.pc)

omit [DecidableEq Bucket] in
theorem Locked.keep (locked : Locked hash s) {q : Pc Thread Bucket} (lock : next.lock = s.lock)
    (pc : next.pc = Function.update s.pc t q) (same : q.held hash = (s.pc t).held hash) :
    Locked hash next := by
  unfold Locked
  rw [lock, pc, Function.comp_update]
  exact Agrees.keep locked same

theorem Locked.acquire (locked : Locked hash s) {p q : Pc Thread Bucket} {b : Bucket}
    (here : s.pc t = p) (acquires : Acquires hash p b q) (free : s.lock b = none) :
    Locked hash ((s.setLock b (some t)).goto t q) := by
  have idle : (Pc.held hash ∘ s.pc) t = none := by
    rw [Function.comp_apply, here]
    cases acquires <;> rfl
  have taken := Agrees.acquire locked free idle
  unfold Locked
  simp only [State.goto, State.setLock, Function.comp_update]
  cases acquires <;> exact taken

theorem Locked.release (locked : Locked hash s) {q : Pc Thread Bucket} {b : Bucket}
    (holds : (s.pc t).held hash = some b) (none_ : q.held hash = none) :
    Locked hash ((s.setLock b none).goto t q) := by
  have released := Agrees.release locked holds
  unfold Locked
  simp only [State.goto, State.setLock, Function.comp_update, none_]
  exact released

theorem Locked.step (locked : Locked hash s) (step : Step hash s t next) : Locked hash next := by
  cases step with
  | move here moves => exact locked.keep rfl rfl (by rw [here, moves.held_eq])
  | store => exact locked
  | enter here => exact locked.keep rfl rfl (by rw [here]; rfl)
  | inc here => exact locked.keep rfl rfl (by rw [here]; rfl)
  | point here => exact locked.keep rfl rfl (by rw [here]; rfl)
  | acquire here acquires free => exact locked.acquire here acquires free
  | compare here => exact locked.keep rfl rfl (by rw [here]; split <;> rfl)
  | enqueue here => exact locked.keep rfl rfl (by rw [here]; rfl)
  | release here releases =>
      refine locked.release ?_ ?_
      · rw [here]
        cases releases <;> rfl
      · cases releases <;> rfl
  | dec here decs => exact locked.keep rfl rfl (by rw [here]; cases decs <;> rfl)
  | remove here removes _ => exact locked.keep rfl rfl (by rw [here]; cases removes <;> rfl)
  | clear here => exact locked.keep rfl rfl (by rw [here]; split <;> rfl)
  | skip here _ => exact locked.keep rfl rfl (by rw [here]; rfl)
  | finish here => exact locked.release (by rw [here]; rfl) rfl

/-! ## The counters -/

omit [DecidableEq Thread] in
theorem plistAdd_perm (prio : Thread → Nat) (this : Thread) (chain : List Thread) :
    (plistAdd prio this chain).Perm (this :: chain) := by
  refine List.perm_middle.trans ?_
  rw [List.takeWhile_append_dropWhile]

omit [DecidableEq Bucket] in
theorem queuedIn_eq_some {this : Thread} {b : Bucket} :
    s.queuedIn this = some b ↔ s.lockPtr this = some b ∧ this ∈ s.chain b := by
  unfold State.queuedIn
  cases s.lockPtr this with
  | none => simp
  | some hb =>
      simp only [Option.ite_none_right_eq_some, Option.some.injEq]
      constructor
      · rintro ⟨member, rfl⟩
        exact ⟨rfl, member⟩
      · rintro ⟨rfl, member⟩
        exact ⟨member, rfl⟩

section Counted

variable [Fintype Thread]

/-- The counter of a bucket is the number of its entries and of those in transit. -/
def Counted (hash : BitVec 64 → Bucket) (s : State Thread Bucket) : Prop :=
  ∀ b, s.waiters b = (s.chain b).length + count (Pc.transit hash ∘ s.pc) b

/-- A step whose three changes are balanced. -/
theorem Counted.of_balance (counted : Counted hash s) {q : Pc Thread Bucket}
    (pc : next.pc = Function.update s.pc t q)
    (balance : ∀ b, next.waiters b - s.waiters b = (next.chain b).length - (s.chain b).length +
      (share (q.transit hash) b - share ((s.pc t).transit hash) b)) : Counted hash next := by
  intro b
  have before := counted b
  have change := balance b
  rw [pc, Function.comp_update, count_update, Function.comp_apply]
  omega

theorem Counted.keep (counted : Counted hash s) {q : Pc Thread Bucket}
    (pc : next.pc = Function.update s.pc t q) (waiters : next.waiters = s.waiters)
    (chain : next.chain = s.chain) (same : q.transit hash = (s.pc t).transit hash) :
    Counted hash next := by
  refine counted.of_balance pc fun b => ?_
  rw [waiters, chain, same]
  omega

theorem Counted.add (counted : Counted hash s) {q : Pc Thread Bucket} {b : Bucket} {change : Int}
    (balance : ∀ c, share (q.transit hash) c - share ((s.pc t).transit hash) c =
      if b = c then change else 0) :
    Counted hash ((s.addWaiters b change).goto t q) := by
  refine counted.of_balance rfl fun c => ?_
  rw [balance c]
  rcases eq_or_ne b c with rfl | other
  · simp only [State.goto, State.addWaiters, Function.update_self, if_true]
    omega
  · simp only [State.goto, State.addWaiters, Function.update_of_ne other.symm, if_neg other]
    omega

theorem Counted.queue (counted : Counted hash s) {q : Pc Thread Bucket} {b : Bucket}
    {chain : List Thread} {prio : Thread → Nat}
    (balance : ∀ c, share (q.transit hash) c - share ((s.pc t).transit hash) c =
      if b = c then ((s.chain b).length : Int) - chain.length else 0) :
    Counted hash (({ s with prio }.setChain b chain).goto t q) := by
  refine counted.of_balance rfl fun c => ?_
  rw [balance c]
  rcases eq_or_ne b c with rfl | other
  · simp only [State.goto, State.setChain, Function.update_self, if_true]
    omega
  · simp only [State.goto, State.setChain, Function.update_of_ne other.symm, if_neg other]
    omega

theorem Counted.step (counted : Counted hash s) (step : Step hash s t next) :
    Counted hash next := by
  cases step with
  | move here moves => exact counted.keep rfl rfl rfl (by rw [here, moves.transit_eq])
  | store => exact counted
  | enter here => exact counted.keep rfl rfl rfl (by rw [here]; rfl)
  | inc here => exact counted.add fun c => by simp [here, Pc.transit]
  | point here => exact counted.keep rfl rfl rfl (by rw [here]; rfl)
  | acquire here acquires _ =>
      exact counted.keep rfl rfl rfl (by rw [here]; cases acquires <;> rfl)
  | compare here => exact counted.keep rfl rfl rfl (by rw [here]; split <;> rfl)
  | enqueue here =>
      refine counted.queue fun c => ?_
      rw [(plistAdd_perm ..).length_eq, List.length_cons, here]
      simp only [Pc.transit, share_none, share_some]
      split <;> omega
  | release here releases =>
      exact counted.keep rfl rfl rfl (by rw [here]; cases releases <;> rfl)
  | dec here decs =>
      refine counted.add fun c => ?_
      rw [here]
      cases decs <;> simp only [Pc.transit, share_none, share_some] <;> split <;> rfl
  | @remove p x b q here removes queued =>
      refine counted.queue fun c => ?_
      have member := (queuedIn_eq_some.mp queued).2
      have positive := List.length_pos_of_mem member
      rw [List.length_erase_of_mem member, here]
      cases removes <;> simp only [Pc.transit, share_none, share_some] <;> split <;> omega
  | clear here => exact counted.keep rfl rfl rfl (by rw [here]; split <;> rfl)
  | skip here _ => exact counted.keep rfl rfl rfl (by rw [here]; rfl)
  | finish here => exact counted.keep rfl rfl rfl (by rw [here]; rfl)

end Counted

end

end Lupin.Queue.Futex
