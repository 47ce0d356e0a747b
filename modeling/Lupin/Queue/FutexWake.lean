import Lupin.Queue.FutexSteps

/-!
# No lost wake-up

The entries in the lists of the buckets, and what a completed `wake_proc` says about those that
are left.
-/

namespace Lupin.Queue.Futex

open Lupin.Holders Lupin.Transition Lupin.Queue.WakeKind

variable {Thread Bucket : Type} [DecidableEq Thread]

section

variable {hash : BitVec 64 → Bucket} {s next : State Thread Bucket} {t : Thread}

/-! ## The entries -/

/-- The entry of the task may be in a list: it was queued and not unqueued by the task. -/
def Pc.waiting : Pc Thread Bucket → Bool
  | .unlockQueued _ | .asleep _ | .readLockPtr _ | .lockQueue _ _ | .recheck _ _
  | .unlockRetry _ _ | .del _ _ => true
  | _ => false

/-- The call of a waiter that the task is in. -/
def Pc.request : Pc Thread Bucket → Option Wait
  | .waitersInc wait | .setLockPtr wait | .lockBucket wait | .load wait | .unlockMismatch wait
  | .decMismatch wait | .queue wait | .unlockQueued wait | .asleep wait | .readLockPtr wait
  | .lockQueue wait _ | .recheck wait _ | .unlockRetry wait _ | .del wait _
  | .decUnqueued wait _ _ | .unlockUnqueued wait _ => some wait
  | _ => none

/-- A scan for an offset has `rest` before it, and has left no entry for the offset behind. -/
def Scanned (hash : BitVec 64 → Bucket) (s : State Thread Bucket) (wake : Wake)
    (rest : List Thread) : Prop :=
  ∃ seen, s.chain (hash wake.offset) = seen ++ rest ∧ ∀ x ∈ seen, s.key x ≠ wake.offset

/-- The scan has removed the entry of a task, which still finds its lock pointer set. -/
abbrev Taken (hash : BitVec 64 → Bucket) (s : State Thread Bucket) (wake : Wake)
    (this : Thread) (next : Option Thread) : Prop :=
  this ∉ s.chain (hash wake.offset) ∧ (s.pc this).waiting = true ∧
    s.lockPtr this = some (hash wake.offset) ∧
    ∃ rest, Scanned hash s wake rest ∧ rest.head? = next

/-- What a task at a place relies on. -/
def Placed (hash : BitVec 64 → Bucket) (s : State Thread Bucket) (t : Thread) :
    Pc Thread Bucket → Prop
  | .lockBucket wait | .load wait | .queue wait => s.lockPtr t = some (hash wait.offset)
  | .del _ b => s.lockPtr t = some b
  | .visit wake this => ∃ rest, Scanned hash s wake rest ∧ rest.head? = this
  | .examine wake this next => ∃ rest, Scanned hash s wake (this :: rest) ∧ rest.head? = next
  | .mark wake this next =>
      s.key this = wake.offset ∧ ∃ rest, Scanned hash s wake (this :: rest) ∧ rest.head? = next
  | .decMarked wake _ this next | .clearLockPtr wake this next => Taken hash s wake this next
  | .unlockWake wake => wake.wt = .all → Scanned hash s wake []
  | _ => True

structure Tidy (hash : BitVec 64 → Bucket) (s : State Thread Bucket) : Prop where
  nodup : ∀ b, (s.chain b).Nodup
  member : ∀ b t, t ∈ s.chain b →
    s.lockPtr t = some b ∧ hash (s.key t) = b ∧ (s.pc t).waiting = true
  key : ∀ t wait, (s.pc t).request = some wait → s.key t = wait.offset
  placed : ∀ t, Placed hash s t (s.pc t)

/-- What a step of a task leaves as it is. -/
structure Frame (hash : BitVec 64 → Bucket) (s : State Thread Bucket) (t : Thread)
    (next : State Thread Bucket) : Prop where
  pc : ∀ x ≠ t, next.pc x = s.pc x
  chain : ∀ b, (s.pc t).held hash ≠ some b → next.chain b = s.chain b
  grow : ∀ b, ∀ x ∈ next.chain b, x ∈ s.chain b ∨
    (x = t ∧ ∃ wait, s.pc t = .queue wait ∧ b = hash wait.offset ∧
      next.pc t = .unlockQueued wait ∧ next.lockPtr t = s.lockPtr t ∧ next.key t = s.key t)
  key : ∀ x, x ≠ t ∨ (s.pc x).waiting = true → next.key x = s.key x
  request : ∀ wait, (next.pc t).request = some wait →
    next.key t = wait.offset ∨ ((s.pc t).request = some wait ∧ next.key t = s.key t)
  lockPtr : ∀ x ≠ t, next.lockPtr x = s.lockPtr x ∨
    ∃ wake entry, s.pc t = .clearLockPtr wake x entry
  lockPtrSelf : (s.pc t).waiting = true → next.lockPtr t = s.lockPtr t
  leave : (s.pc t).waiting = true → (next.pc t).waiting = true ∨ s.lockPtr t = none ∨
    ((∃ wait b, s.pc t = .del wait b) ∧ ∀ b, t ∉ next.chain b)

omit [DecidableEq Thread] in
theorem mem_of_scanned {wake : Wake} {this : Thread} {rest : List Thread}
    (scanned : Scanned hash s wake (this :: rest)) : this ∈ s.chain (hash wake.offset) := by
  obtain ⟨seen, whole, _⟩ := scanned
  rw [whole]
  exact List.mem_append_right _ List.mem_cons_self

/-- The task moves, and nothing that concerns entries changes. -/
theorem Frame.of_goto {q : Pc Thread Bucket} (pc : next.pc = Function.update s.pc t q)
    (chain : next.chain = s.chain) (key : next.key = s.key) (lockPtr : next.lockPtr = s.lockPtr)
    (request : ∀ wait, q.request = some wait → (s.pc t).request = some wait)
    (leave : (s.pc t).waiting = true → q.waiting = true ∨ s.lockPtr t = none ∨
      ((∃ wait b, s.pc t = .del wait b) ∧ ∀ b, t ∉ s.chain b)) : Frame hash s t next where
  pc := fun x other => by rw [pc, Function.update_of_ne other]
  chain := fun b _ => by rw [chain]
  grow := fun b x member => .inl (by rwa [chain] at member)
  key := fun x _ => by rw [key]
  request := fun wait requested => by
    rw [pc, Function.update_self] at requested
    exact .inr ⟨request wait requested, by rw [key]⟩
  lockPtr := fun x _ => .inl (by rw [lockPtr])
  lockPtrSelf := fun _ => by rw [lockPtr]
  leave := fun waits => by
    rw [pc, Function.update_self, chain]
    exact leave waits

/-- A task whose entry is not in a list cannot be in one. -/
theorem Tidy.not_mem_of_warns (tidy : Tidy hash s) (warns : s.queuedIn t = none) (b : Bucket) :
    t ∉ s.chain b := by
  intro member
  have queued := queuedIn_eq_some.mpr ⟨(tidy.member b t member).1, member⟩
  rw [warns] at queued
  cases queued

/-- The entry is removed from the list whose lock the task holds. -/
theorem Tidy.held_of_removes (tidy : Tidy hash s) {p q : Pc Thread Bucket} {x : Thread}
    {b : Bucket} (here : s.pc t = p) (removes : Removes t p x b q)
    (queued : s.queuedIn x = some b) : (s.pc t).held hash = some b := by
  have ptr := (queuedIn_eq_some.mp queued).1
  have placed := tidy.placed t
  rw [here] at placed ⊢
  cases removes with
  | own => exact placed.symm.trans ptr
  | mark =>
      obtain ⟨_, rest, scanned, _⟩ := placed
      exact (tidy.member _ x (mem_of_scanned scanned)).1.symm.trans ptr

theorem Tidy.frame_move (tidy : Tidy hash s) {p q : Pc Thread Bucket} (here : s.pc t = p)
    (moves : Moves hash s t p q) : Frame hash s t (s.goto t q) := by
  refine .of_goto rfl rfl rfl rfl ?_ ?_
  · rw [here]
    cases moves <;> simp [Pc.request]
  · rw [here]
    intro waits
    cases moves with
    | run | read | retry | unqueue => exact .inl rfl
    | woken gone => exact .inr (.inl gone)
    | warnOwn warns => exact .inr (.inr ⟨⟨_, _, rfl⟩, tidy.not_mem_of_warns warns⟩)
    | call | pending | first | last | visit | pass | hit | warnMark => cases waits

theorem frame_setPtr {x : Thread} {ptr : Option Bucket} {q : Pc Thread Bucket}
    (changes : x = t ∨ ∃ wake entry, s.pc t = .clearLockPtr wake x entry)
    (request : ∀ wait, q.request = some wait → (s.pc t).request = some wait)
    (busy : (s.pc t).waiting = false) : Frame hash s t ((s.setPtr x ptr).goto t q) where
  pc := fun y other => Function.update_of_ne other _ _
  chain := fun _ _ => rfl
  grow := fun _ _ member => .inl member
  key := fun _ _ => rfl
  request := fun wait requested => by
    simp only [State.goto, Function.update_self] at requested
    exact .inr ⟨request wait requested, rfl⟩
  lockPtr := fun y other => by
    rcases eq_or_ne y x with rfl | different
    · exact .inr (changes.resolve_left other)
    · exact .inl (Function.update_of_ne different _ _)
  lockPtrSelf := fun waits => by
    rw [busy] at waits
    cases waits
  leave := fun waits => by
    rw [busy] at waits
    cases waits

theorem frame_enter {wait : Wait} (here : s.pc t = .idle) :
    Frame hash s t
      ({ s with key := Function.update s.key t wait.offset }.goto t (.waitersInc wait)) where
  pc := fun y other => Function.update_of_ne other _ _
  chain := fun _ _ => rfl
  grow := fun _ _ member => .inl member
  key := fun x changes => by
    have other : x ≠ t := by
      rintro rfl
      rcases changes with different | waits
      · exact different rfl
      · rw [here] at waits
        cases waits
    exact Function.update_of_ne other _ _
  request := fun w requested => by
    simp only [State.goto, Function.update_self] at requested
    obtain rfl := Option.some.inj requested
    exact .inl (Function.update_self ..)
  lockPtr := fun _ _ => .inl rfl
  lockPtrSelf := fun _ => rfl
  leave := fun waits => by
    rw [here] at waits
    cases waits

variable [DecidableEq Bucket]

theorem Tidy.frame_remove (tidy : Tidy hash s) {p q : Pc Thread Bucket} {x : Thread}
    {b : Bucket} (here : s.pc t = p) (removes : Removes t p x b q)
    (queued : s.queuedIn x = some b) :
    Frame hash s t ((s.setChain b ((s.chain b).erase x)).goto t q) where
  pc := fun y other => Function.update_of_ne other _ _
  chain := fun c notHeld => by
    rw [tidy.held_of_removes here removes queued] at notHeld
    exact Function.update_of_ne (fun same => notHeld (by rw [same])) _ _
  grow := fun c y member => by
    refine .inl ?_
    rcases eq_or_ne c b with rfl | other
    · simp only [State.goto, State.setChain, Function.update_self] at member
      exact List.mem_of_mem_erase member
    · simpa [State.goto, State.setChain, Function.update_of_ne other] using member
  key := fun _ _ => rfl
  request := fun wait requested => by
    refine .inr ⟨?_, rfl⟩
    rw [here]
    simp only [State.goto, Function.update_self] at requested
    cases removes with
    | own => exact requested
    | mark => cases requested
  lockPtr := fun _ _ => .inl rfl
  lockPtrSelf := fun _ => rfl
  leave := fun waits => by
    rw [here] at waits ⊢
    cases removes with
    | mark => cases waits
    | own =>
        refine .inr (.inr ⟨⟨_, _, rfl⟩, fun c => ?_⟩)
        rcases eq_or_ne c b with rfl | other
        · simp only [State.goto, State.setChain, Function.update_self]
          exact (tidy.nodup c).not_mem_erase
        · simp only [State.goto, State.setChain, Function.update_of_ne other]
          intro member
          have ptr := (queuedIn_eq_some.mp queued).1
          exact other (Option.some.inj ((tidy.member c t member).1.symm.trans ptr))

theorem frame_enqueue {wait : Wait} {prio : Thread → Nat} (here : s.pc t = .queue wait) :
    Frame hash s t (({ s with prio }.setChain (hash wait.offset)
      (plistAdd prio t (s.chain (hash wait.offset)))).goto t (.unlockQueued wait)) where
  pc := fun y other => Function.update_of_ne other _ _
  chain := fun c notHeld => by
    rw [here] at notHeld
    exact Function.update_of_ne (fun same => notHeld (by rw [same]; rfl)) _ _
  grow := fun c y member => by
    rcases eq_or_ne c (hash wait.offset) with rfl | other
    · simp only [State.goto, State.setChain, Function.update_self] at member
      rcases List.mem_cons.mp ((plistAdd_perm ..).mem_iff.mp member) with rfl | old
      · exact .inr ⟨rfl, wait, here, rfl, Function.update_self .., rfl, rfl⟩
      · exact .inl old
    · exact .inl (by simpa [State.goto, State.setChain, Function.update_of_ne other] using member)
  key := fun _ _ => rfl
  request := fun w requested => by
    simp only [State.goto, Function.update_self] at requested
    exact .inr ⟨by rw [here]; exact requested, rfl⟩
  lockPtr := fun _ _ => .inl rfl
  lockPtrSelf := fun _ => rfl
  leave := fun waits => by
    rw [here] at waits
    cases waits

theorem Tidy.frame (tidy : Tidy hash s) (step : Step hash s t next) : Frame hash s t next := by
  cases step with
  | move here moves => exact tidy.frame_move here moves
  | store =>
      exact .of_goto (Function.update_eq_self ..).symm rfl rfl rfl (fun _ same => same) .inl
  | enter here => exact frame_enter here
  | inc here =>
      refine .of_goto rfl rfl rfl rfl ?_ ?_ <;> rw [here] <;> simp [Pc.request, Pc.waiting]
  | point here =>
      refine frame_setPtr (.inl rfl) ?_ ?_ <;> rw [here] <;> simp [Pc.request, Pc.waiting]
  | acquire here acquires _ =>
      refine .of_goto rfl rfl rfl rfl ?_ ?_ <;> rw [here] <;>
        cases acquires <;> simp [Pc.request, Pc.waiting]
  | compare here =>
      refine .of_goto rfl rfl rfl rfl ?_ ?_ <;> rw [here]
      · split <;> simp [Pc.request]
      · simp [Pc.waiting]
  | enqueue here => exact frame_enqueue here
  | release here releases =>
      refine .of_goto rfl rfl rfl rfl ?_ ?_ <;> rw [here] <;>
        cases releases <;> simp [Pc.request, Pc.waiting]
  | dec here decs =>
      refine .of_goto rfl rfl rfl rfl ?_ ?_ <;> rw [here] <;>
        cases decs <;> simp [Pc.request, Pc.waiting]
  | remove here removes queued => exact tidy.frame_remove here removes queued
  | clear here =>
      refine frame_setPtr (.inr ⟨_, _, here⟩) ?_ ?_ <;> rw [here]
      · split <;> simp [Pc.request]
      · rfl
  | skip here _ =>
      refine .of_goto rfl rfl rfl rfl ?_ ?_ <;> rw [here] <;> simp [Pc.request, Pc.waiting]
  | finish here =>
      refine .of_goto rfl rfl rfl rfl ?_ ?_ <;> rw [here] <;> simp [Pc.request, Pc.waiting]

/-! ### The other tasks -/

section Others

omit [DecidableEq Thread] [DecidableEq Bucket]

/-- No other task touches the list of a bucket whose lock is held. -/
theorem Frame.scanned (frame : Frame hash s t next) (locked : Locked hash s)
    (tidy : Tidy hash s) {u : Thread} (other : u ≠ t) {wake : Wake} {rest : List Thread}
    (holds : (s.pc u).held hash = some (hash wake.offset))
    (scanned : Scanned hash s wake rest) : Scanned hash next wake rest := by
  have sameChain : next.chain (hash wake.offset) = s.chain (hash wake.offset) :=
    frame.chain _ fun alsoHolds => other (locked.unique holds alsoHolds)
  obtain ⟨seen, whole, passed⟩ := scanned
  refine ⟨seen, sameChain.trans whole, fun x member => ?_⟩
  have queued : x ∈ s.chain (hash wake.offset) := by
    rw [whole]
    exact List.mem_append_left _ member
  rw [frame.key x (.inr (tidy.member _ x queued).2.2)]
  exact passed x member

/-- The lock pointer of a task is only cleared while its entry is being taken. -/
theorem Frame.lockPtr_eq (frame : Frame hash s t next) (tidy : Tidy hash s) {x : Thread}
    (other : x ≠ t)
    (kept : ∀ wake entry, s.pc t = .clearLockPtr wake x entry → ¬ Taken hash s wake x entry) :
    next.lockPtr x = s.lockPtr x := by
  refine (frame.lockPtr x other).resolve_right ?_
  rintro ⟨wake, entry, here⟩
  have taken := tidy.placed t
  rw [here] at taken
  exact kept wake entry here taken

/-- While a task holds the lock of a bucket no other task takes an entry of that bucket. -/
theorem Frame.lockPtr_of_held (frame : Frame hash s t next) (locked : Locked hash s)
    (tidy : Tidy hash s) {u x : Thread} {b : Bucket} (other : u ≠ t) (apart : x ≠ t)
    (holds : (s.pc u).held hash = some b) (ptr : s.lockPtr x = some b) :
    next.lockPtr x = some b := by
  rw [frame.lockPtr_eq tidy apart, ptr]
  intro wake entry here taken
  have same : hash wake.offset = b := Option.some.inj (taken.2.2.1.symm.trans ptr)
  refine other (locked.unique holds ?_)
  rw [Function.comp_apply, here, ← same]
  rfl

theorem Frame.taken (frame : Frame hash s t next) (locked : Locked hash s) (tidy : Tidy hash s)
    {u this : Thread} (other : u ≠ t) {wake : Wake} {entry : Option Thread}
    (holds : (s.pc u).held hash = some (hash wake.offset))
    (taken : Taken hash s wake this entry) : Taken hash next wake this entry := by
  have sameChain : next.chain (hash wake.offset) = s.chain (hash wake.offset) :=
    frame.chain _ fun alsoHolds => other (locked.unique holds alsoHolds)
  obtain ⟨rest, scanned, first⟩ := taken.2.2.2
  refine ⟨sameChain ▸ taken.1, ?_, ?_,
    rest, frame.scanned locked tidy other holds scanned, first⟩
  · rcases eq_or_ne this t with rfl | apart
    · rcases frame.leave taken.2.1 with stays | none_ | ⟨⟨wait, b, here⟩, _⟩
      · exact stays
      · cases none_.symm.trans taken.2.2.1
      · -- the task would hold the lock that the scan holds
        have ptr := tidy.placed this
        rw [here] at ptr
        have same : b = hash wake.offset := Option.some.inj (Eq.trans (Eq.symm ptr) taken.2.2.1)
        refine absurd (locked.unique holds ?_) other
        rw [Function.comp_apply, here, ← same]
        rfl
    · rw [frame.pc this apart]
      exact taken.2.1
  · rcases eq_or_ne this t with rfl | apart
    · rw [frame.lockPtrSelf taken.2.1]
      exact taken.2.2.1
    · exact frame.lockPtr_of_held locked tidy other apart holds taken.2.2.1

/-- What a task relies on is not changed by the others. -/
theorem Frame.placed (frame : Frame hash s t next) (locked : Locked hash s) (tidy : Tidy hash s)
    {u : Thread} (other : u ≠ t) : Placed hash next u (next.pc u) := by
  have placed := tidy.placed u
  rw [frame.pc u other]
  have notTaken : (s.pc u).waiting = false → next.lockPtr u = s.lockPtr u := fun busy =>
    frame.lockPtr_eq tidy other fun wake entry _ taken => by
      cases busy.symm.trans taken.2.1
  generalize here : s.pc u = p at placed ⊢
  cases p with
  | lockBucket wait | load wait | queue wait =>
      exact (notTaken (by rw [here]; rfl)).trans placed
  | del wait b =>
      exact frame.lockPtr_of_held locked tidy other other (by rw [here]; rfl) placed
  | visit wake this =>
      obtain ⟨rest, scanned, first⟩ := placed
      exact ⟨rest, frame.scanned locked tidy other (by rw [here]; rfl) scanned, first⟩
  | examine wake this entry =>
      obtain ⟨rest, scanned, first⟩ := placed
      exact ⟨rest, frame.scanned locked tidy other (by rw [here]; rfl) scanned, first⟩
  | mark wake this entry =>
      obtain ⟨key, rest, scanned, first⟩ := placed
      refine ⟨?_, rest, frame.scanned locked tidy other (by rw [here]; rfl) scanned, first⟩
      rw [frame.key this (.inr (tidy.member _ this (mem_of_scanned scanned)).2.2)]
      exact key
  | decMarked wake hb this entry =>
      exact frame.taken locked tidy other (by rw [here]; rfl) placed
  | clearLockPtr wake this entry =>
      exact frame.taken locked tidy other (by rw [here]; rfl) placed
  | unlockWake wake =>
      exact fun all => frame.scanned locked tidy other (by rw [here]; rfl) (placed all)
  | idle | waitersInc | setLockPtr | unlockMismatch | decMismatch | unlockQueued | asleep
  | readLockPtr | lockQueue | recheck | unlockRetry | decUnqueued | unlockUnqueued | pending
  | lockWake | first => trivial

end Others

/-! ### The task itself -/

theorem nextIn_append {seen rest : List Thread} {this : Thread} (absent : this ∉ seen) :
    nextIn (seen ++ this :: rest) this = rest.head? := by
  rw [nextIn, List.dropWhile_append_of_pos]
  · simp
  · intro x member
    have differs : x ≠ this := fun same => absent (same ▸ member)
    simpa using differs

omit [DecidableEq Bucket] in
theorem Tidy.placed_move (tidy : Tidy hash s) {p q : Pc Thread Bucket} (here : s.pc t = p)
    (moves : Moves hash s t p q) : Placed hash (s.goto t q) t q := by
  have placed := tidy.placed t
  rw [here] at placed
  cases moves with
  | run | woken | read | retry | warnOwn | call | pending => trivial
  | unqueue ptr => exact ptr
  | first => exact ⟨_, ⟨[], rfl, by simp⟩, rfl⟩
  | last =>
      obtain ⟨rest, scanned, first⟩ := placed
      obtain rfl := List.head?_eq_none_iff.mp first
      exact fun _ => scanned
  | @visit wake this =>
      obtain ⟨rest, scanned, first⟩ := placed
      obtain ⟨behind, rfl⟩ := List.head?_eq_some_iff.mp first
      refine ⟨behind, scanned, ?_⟩
      obtain ⟨seen, whole, _⟩ := scanned
      have distinct := tidy.nodup (hash wake.offset)
      rw [whole] at distinct ⊢
      have absent : this ∉ seen := fun member =>
        (List.nodup_append.mp distinct).2.2 this member this List.mem_cons_self rfl
      exact (nextIn_append absent).symm
  | @pass wake this entry differs =>
      obtain ⟨rest, ⟨seen, whole, passed⟩, first⟩ := placed
      refine ⟨rest, ⟨seen ++ [this], whole.trans (by simp), ?_⟩, first⟩
      simp only [List.mem_append, List.mem_singleton]
      rintro x (member | rfl)
      · exact passed x member
      · exact differs
  | hit same => exact ⟨same, placed⟩
  | @warnMark wake this entry warns =>
      obtain ⟨_, rest, scanned, _⟩ := placed
      exact absurd (mem_of_scanned scanned) (tidy.not_mem_of_warns warns _)

/-- The entry is out of the list, and the scan goes on behind it. -/
theorem Tidy.placed_mark (tidy : Tidy hash s) {wake : Wake} {this : Thread}
    {entry : Option Thread} {b : Bucket} (here : s.pc t = .mark wake this entry)
    (queued : s.queuedIn this = some b) :
    Taken hash ((s.setChain b ((s.chain b).erase this)).goto t (.decMarked wake b this entry)) wake
      this entry := by
  have held := tidy.held_of_removes here .mark queued
  rw [here] at held
  obtain rfl : hash wake.offset = b := Option.some.inj held
  obtain ⟨ptr, member⟩ := queuedIn_eq_some.mp queued
  have placed := tidy.placed t
  rw [here] at placed
  obtain ⟨_, rest, ⟨seen, whole, passed⟩, first⟩ := placed
  have distinct := tidy.nodup (hash wake.offset)
  have waits := (tidy.member _ this member).2.2
  have apart : this ≠ t := by
    rintro rfl
    rw [here] at waits
    cases waits
  refine ⟨?_, ?_, ptr, rest, ⟨seen, ?_, passed⟩, first⟩
  · simp only [State.goto, State.setChain, Function.update_self]
    exact distinct.not_mem_erase
  · simpa only [State.goto, State.setChain, Function.update_of_ne apart] using waits
  · rw [whole] at distinct
    have absent : this ∉ seen := fun inSeen =>
      (List.nodup_append.mp distinct).2.2 this inSeen this List.mem_cons_self rfl
    simp only [State.goto, State.setChain, Function.update_self, whole]
    rw [List.erase_append_right _ absent, List.erase_cons_head]

theorem Tidy.placed_self (tidy : Tidy hash s) (step : Step hash s t next) :
    Placed hash next t (next.pc t) := by
  have placed := tidy.placed t
  cases step with
  | store => exact placed
  | move here moves =>
      simp only [State.goto, Function.update_self]
      exact tidy.placed_move here moves
  | enter | inc | enqueue | skip | finish =>
      simp only [State.goto, Function.update_self]
      trivial
  | point =>
      simp only [State.goto, Function.update_self]
      exact Function.update_self ..
  | acquire here acquires _ =>
      rw [here] at placed
      simp only [State.goto, Function.update_self]
      cases acquires with
      | wait => exact placed
      | unqueue | wake => trivial
  | compare here =>
      rw [here] at placed
      simp only [State.goto, Function.update_self]
      split
      · exact placed
      · trivial
  | release here releases =>
      simp only [State.goto, Function.update_self]
      cases releases <;> trivial
  | dec here decs =>
      rw [here] at placed
      simp only [State.goto, Function.update_self]
      cases decs with
      | mismatch | unqueued => trivial
      | @marked wake hb this entry =>
          have apart : this ≠ t := by
            rintro rfl
            have waits := placed.2.1
            rw [here] at waits
            cases waits
          refine ⟨placed.1, ?_, placed.2.2.1, placed.2.2.2⟩
          simpa only [State.addWaiters, Function.update_of_ne apart] using placed.2.1
  | remove here removes queued =>
      simp only [State.goto, Function.update_self]
      cases removes with
      | own => trivial
      | mark => exact tidy.placed_mark here queued
  | @clear wake this entry here =>
      rw [here] at placed
      simp only [State.goto, Function.update_self]
      split
      · next isNext =>
        intro isAll
        rw [isNext] at isAll
        cases isAll
      · exact placed.2.2.2

theorem Tidy.step (tidy : Tidy hash s) (locked : Locked hash s) (step : Step hash s t next) :
    Tidy hash next := by
  have frame := tidy.frame step
  refine ⟨?_, fun b x member => ?_, fun x wait requested => ?_, fun x => ?_⟩
  · cases step with
    | @enqueue wait prio here =>
        intro b
        have fresh : t ∉ s.chain (hash wait.offset) := fun member => by
          have waits := (tidy.member _ t member).2.2
          rw [here] at waits
          cases waits
        rcases eq_or_ne b (hash wait.offset) with rfl | other
        · simp only [State.goto, State.setChain, Function.update_self]
          exact (plistAdd_perm ..).nodup_iff.mpr (List.nodup_cons.mpr ⟨fresh, tidy.nodup _⟩)
        · simp only [State.goto, State.setChain, Function.update_of_ne other]
          exact tidy.nodup b
    | @remove p x b q here removes queued =>
        intro c
        rcases eq_or_ne c b with rfl | other
        · simp only [State.goto, State.setChain, Function.update_self]
          exact (tidy.nodup c).erase x
        · simp only [State.goto, State.setChain, Function.update_of_ne other]
          exact tidy.nodup c
    | move | store | enter | inc | point | acquire | compare | release | dec | clear | skip
    | finish => exact tidy.nodup
  · rcases frame.grow b x member with old | ⟨rfl, wait, here, rfl, now, samePtr, sameKey⟩
    · obtain ⟨ptr, key, waits⟩ := tidy.member b x old
      rw [frame.key x (.inr waits)]
      rcases eq_or_ne x t with rfl | apart
      · refine ⟨(frame.lockPtrSelf waits).trans ptr, key, ?_⟩
        rcases frame.leave waits with stays | none_ | ⟨_, absent⟩
        · exact stays
        · cases none_.symm.trans ptr
        · exact absurd member (absent b)
      · refine ⟨?_, key, by rwa [frame.pc x apart]⟩
        rw [frame.lockPtr_eq tidy apart, ptr]
        intro wake entry here taken
        have same : b = hash wake.offset := Option.some.inj (ptr.symm.trans taken.2.2.1)
        exact taken.1 (same ▸ old)
    · have ptr := tidy.placed x
      rw [here] at ptr
      have key := tidy.key x wait (by rw [here]; rfl)
      exact ⟨samePtr.trans ptr, by rw [sameKey, key], by rw [now]; rfl⟩
  · rcases eq_or_ne x t with rfl | apart
    · rcases frame.request wait requested with now | ⟨before, same⟩
      · exact now
      · exact same.trans (tidy.key x wait before)
    · rw [frame.key x (.inl apart)]
      exact tidy.key x wait (by rwa [frame.pc x apart] at requested)
  · rcases eq_or_ne x t with rfl | apart
    · exact tidy.placed_self step
    · exact frame.placed locked tidy apart

/-! ## Completed wake-ups -/

/-- The call of a waker that the task is in. -/
def Pc.call : Pc Thread Bucket → Option Wake
  | .pending wake | .lockWake wake | .first wake | .visit wake _ | .examine wake _ _
  | .mark wake _ _ | .decMarked wake _ _ _ | .clearLockPtr wake _ _ | .unlockWake wake => some wake
  | _ => none

/-- What a step of a task adds to the history. -/
structure Logged (hash : BitVec 64 → Bucket) (s : State Thread Bucket) (t : Thread)
    (next : State Thread Bucket) : Prop where
  call : ∀ wake, (next.pc t).call = some wake → (s.pc t).call = some wake ∨ wake.start = s.time
  compared : ∀ x, next.comparedAt x = s.comparedAt x ∨ next.comparedAt x = s.time
  queue : ∀ wait, next.pc t = .queue wait → s.pc t = .queue wait ∨ next.comparedAt t = s.time
  woken : next.woken = s.woken ∨ ∃ wake, next.woken = (t, wake) :: s.woken ∧
    next.chain = s.chain ∧ next.key = s.key ∧ next.pc t = .idle ∧
    ((s.pc t = .pending wake ∧ s.waiters (hash wake.offset) = 0) ∨ s.pc t = .unlockWake wake)

omit [DecidableEq Bucket] in
theorem Logged.of_goto {q : Pc Thread Bucket} (pc : next.pc = Function.update s.pc t q)
    (comparedAt : next.comparedAt = s.comparedAt) (woken : next.woken = s.woken)
    (call : ∀ wake, q.call = some wake → (s.pc t).call = some wake ∨ wake.start = s.time)
    (queue : ∀ wait, q = .queue wait → s.pc t = .queue wait) : Logged hash s t next where
  call := by rwa [pc, Function.update_self]
  compared := fun x => .inl (by rw [comparedAt])
  queue := fun wait now => .inl (queue wait (by rwa [pc, Function.update_self] at now))
  woken := .inl woken

omit [DecidableEq Bucket] in
theorem Logged.of_finish {wake : Wake} (pc : next.pc = Function.update s.pc t .idle)
    (comparedAt : next.comparedAt = s.comparedAt) (woken : next.woken = (t, wake) :: s.woken)
    (chain : next.chain = s.chain) (key : next.key = s.key)
    (done : (s.pc t = .pending wake ∧ s.waiters (hash wake.offset) = 0) ∨
      s.pc t = .unlockWake wake) : Logged hash s t next where
  call := by
    rw [pc, Function.update_self]
    intro wake called
    cases called
  compared := fun x => .inl (by rw [comparedAt])
  queue := by
    rw [pc, Function.update_self]
    intro wait now
    cases now
  woken := .inr ⟨wake, woken, chain, key, by rw [pc, Function.update_self], done⟩

theorem Step.logged (step : Step hash s t next) : Logged hash s t next := by
  cases step with
  | move here moves =>
      refine .of_goto rfl rfl rfl ?_ ?_ <;> rw [here] <;> cases moves <;> simp [Pc.call]
  | store =>
      exact .of_goto (Function.update_eq_self ..).symm rfl rfl (fun _ => .inl) (fun _ same => same)
  | enter here | inc here | point here | enqueue here =>
      refine .of_goto rfl rfl rfl ?_ ?_ <;> simp [Pc.call]
  | acquire here acquires _ =>
      refine .of_goto rfl rfl rfl ?_ ?_ <;> rw [here] <;> cases acquires <;> simp [Pc.call]
  | @compare wait here =>
      refine ⟨?_, fun x => ?_, fun _ _ => .inr (Function.update_self ..), .inl rfl⟩
      · simp only [State.goto, Function.update_self]
        split <;> simp [Pc.call]
      · rcases eq_or_ne x t with rfl | apart
        · exact .inr (Function.update_self ..)
        · exact .inl (Function.update_of_ne apart _ _)
  | release here releases =>
      refine .of_goto rfl rfl rfl ?_ ?_ <;> cases releases <;> simp [Pc.call]
  | dec here decs =>
      refine .of_goto rfl rfl rfl ?_ ?_ <;> rw [here] <;> cases decs <;> simp [Pc.call]
  | remove here removes _ =>
      refine .of_goto rfl rfl rfl ?_ ?_ <;> rw [here] <;> cases removes <;> simp [Pc.call]
  | clear here =>
      refine .of_goto rfl rfl rfl ?_ ?_ <;> rw [here] <;> split <;> simp [Pc.call]
  | skip here zero => exact .of_finish rfl rfl rfl rfl rfl (.inl ⟨here, zero⟩)
  | finish here => exact .of_finish rfl rfl rfl rfl rfl (.inr here)

/-- Calls were made in the past, and whoever is queued for the offset of a completed `WAKE_ALL`,
or about to be, compared the word after that call. -/
structure Timely (hash : BitVec 64 → Bucket) (s : State Thread Bucket) : Prop where
  calls : ∀ t wake, (s.pc t).call = some wake → wake.start < s.time
  woken : ∀ e ∈ s.woken, e.2.start < s.time
  fresh : ∀ e ∈ s.woken, e.2.wt = .all → ∀ t,
    (t ∈ s.chain (hash e.2.offset) ∨ ∃ wait, s.pc t = .queue wait) →
    s.key t = e.2.offset → e.2.start < s.comparedAt t

omit [DecidableEq Thread] [DecidableEq Bucket] in
/-- Along a step the calls that were complete before it stay older than the comparisons of
those who are queued. -/
theorem Timely.fresh_step (timely : Timely hash s) (frame : Frame hash s t next)
    (tidy : Tidy hash s) (logged : Logged hash s t next) {e : Thread × Wake} (old : e ∈ s.woken)
    (all : e.2.wt = .all) {x : Thread}
    (busy : x ∈ next.chain (hash e.2.offset) ∨ ∃ wait, next.pc x = .queue wait)
    (key : next.key x = e.2.offset) : e.2.start < next.comparedAt x := by
  rcases logged.compared x with same | now
  · rw [same]
    rcases eq_or_ne x t with rfl | apart
    · rcases busy with queued | ⟨wait, queueing⟩
      · rcases frame.grow _ x queued with before | ⟨_, wait, here, _, _, _, sameKey⟩
        · rw [frame.key x (.inr (tidy.member _ x before).2.2)] at key
          exact timely.fresh e old all x (.inl before) key
        · exact timely.fresh e old all x (.inr ⟨wait, here⟩) (sameKey ▸ key)
      · rcases logged.queue wait queueing with before | now
        · have keyBefore := tidy.key x wait (by rw [before]; rfl)
          refine timely.fresh e old all x (.inr ⟨wait, before⟩) ?_
          rcases frame.request wait (by rw [queueing]; rfl) with keyNow | ⟨_, sameKey⟩
          · rw [keyBefore, ← keyNow, key]
          · rw [← sameKey, key]
        · rw [← same, now]
          exact timely.woken e old
    · rw [frame.key x (.inl apart)] at key
      refine timely.fresh e old all x ?_ key
      rcases busy with queued | ⟨wait, queueing⟩
      · rcases frame.grow _ x queued with before | ⟨rfl, _⟩
        · exact .inl before
        · exact absurd rfl apart
      · exact .inr ⟨wait, by rwa [frame.pc x apart] at queueing⟩
  · rw [now]
    exact timely.woken e old

section

variable [Fintype Thread]

omit [DecidableEq Thread] in
/-- A `wake_proc` for all that is complete has left nobody behind. -/
theorem nobody_of_complete (tidy : Tidy hash s) (locked : Locked hash s)
    (counted : Counted hash s) {wake : Wake} (all : wake.wt = .all)
    (complete : (s.pc t = .pending wake ∧ s.waiters (hash wake.offset) = 0) ∨
      s.pc t = .unlockWake wake) {x : Thread} (key : s.key x = wake.offset) :
    x ∉ s.chain (hash wake.offset) ∧ ∀ wait, s.pc x ≠ .queue wait := by
  have atQueue : ∀ {wait}, s.pc x = .queue wait → wait.offset = wake.offset := fun here =>
    (tidy.key x _ (by rw [here]; rfl)).symm.trans key
  rcases complete with ⟨_, zero⟩ | here
  · have total := counted (hash wake.offset)
    rw [zero] at total
    have transits : 0 ≤ count (Pc.transit hash ∘ s.pc) (hash wake.offset) := count_nonneg
    refine ⟨fun member => ?_, fun wait queued => ?_⟩
    · have positive := List.length_pos_of_mem member
      omega
    · have inTransit : (Pc.transit hash ∘ s.pc) x = some (hash wake.offset) := by
        rw [Function.comp_apply, queued, ← atQueue queued]
        rfl
      have counts := count_pos inTransit
      omega
  · have placed := tidy.placed t
    rw [here] at placed
    obtain ⟨seen, whole, passed⟩ := placed all
    refine ⟨fun member => ?_, fun wait queued => ?_⟩
    · rw [whole, List.append_nil] at member
      exact passed x member key
    · have holds : (s.pc x).held hash = some (hash wake.offset) := by
        rw [queued, ← atQueue queued]
        rfl
      have same : x = t := locked.unique holds (by rw [Function.comp_apply, here]; rfl)
      rw [same, here] at queued
      cases queued

theorem Timely.step (timely : Timely hash s) (tidy : Tidy hash s) (locked : Locked hash s)
    (counted : Counted hash s) (step : Step hash s t next) :
    Timely hash { next with time := s.time + 1 } := by
  have frame := tidy.frame step
  have logged := step.logged
  refine ⟨fun x wake called => ?_, fun e member => ?_, fun e member all x busy key => ?_⟩
  · refine Nat.lt_succ_of_le ?_
    rcases eq_or_ne x t with rfl | apart
    · rcases logged.call wake called with before | now
      · exact (timely.calls x wake before).le
      · exact now.le
    · exact (timely.calls x wake (by rwa [frame.pc x apart] at called)).le
  · refine Nat.lt_succ_of_lt ?_
    rcases logged.woken with same | ⟨wake, added, _, _, _, done⟩
    · exact timely.woken e (same ▸ member)
    · rcases List.mem_cons.mp (added ▸ member) with rfl | old
      · refine timely.calls t wake ?_
        rcases done with ⟨here, _⟩ | here <;> rw [here] <;> rfl
      · exact timely.woken e old
  · rcases logged.woken with same | ⟨wake, added, chain, sameKey, idle, done⟩
    · exact timely.fresh_step frame tidy logged (same ▸ member) all busy key
    · rcases List.mem_cons.mp (added ▸ member) with rfl | old
      · dsimp only at busy key
        rw [chain] at busy
        rw [sameKey] at key
        obtain ⟨absent, notQueueing⟩ := nobody_of_complete tidy locked counted all done key
        rcases busy with queued | ⟨wait, queueing⟩
        · exact absurd queued absent
        · have apart : x ≠ t := by
            rintro rfl
            cases idle.symm.trans queueing
          rw [frame.pc x apart] at queueing
          exact absurd queueing (notQueueing wait)
      · exact timely.fresh_step frame tidy logged old all busy key

end

section Run

variable [Fintype Thread] {word : BitVec 64 → BitVec 64} {key : Thread → BitVec 64}
variable {prio : Thread → Nat} {lockPtr : Thread → Option Bucket}

/-- All that holds along a run. -/
structure Invariant (hash : BitVec 64 → Bucket) (s : State Thread Bucket) : Prop where
  locked : Locked hash s
  counted : Counted hash s
  tidy : Tidy hash s
  timely : Timely hash s

theorem Invariant.initial :
    Invariant hash (futexMachine hash word key prio lockPtr).initial where
  locked := fun _ _ => by simp [futexMachine, Pc.held]
  counted := fun b => by simp [futexMachine, count, Pc.transit]
  tidy := by
    refine ⟨fun _ => List.nodup_nil, ?_, ?_, fun _ => trivial⟩
    · intro _ _ member
      cases member
    · intro _ _ requested
      cases requested
  timely := by
    refine ⟨?_, ?_, ?_⟩
    · intro _ _ called
      cases called
    · intro _ member
      cases member
    · intro _ member
      cases member

theorem Invariant.step (inv : Invariant hash s) (step : Step hash s t next) :
    Invariant hash { next with time := s.time + 1 } where
  locked := fun b x => inv.locked.step step b x
  counted := fun b => inv.counted.step step b
  tidy :=
    have tidy := inv.tidy.step inv.locked step
    ⟨tidy.nodup, tidy.member, tidy.key, tidy.placed⟩
  timely := inv.timely.step inv.tidy inv.locked inv.counted step

theorem invariant_of_reachable
    (reached : (futexMachine hash word key prio lockPtr).Reachable (fun _ _ _ => True) s) :
    Invariant hash s := by
  refine @Machine.Reachable.invariant _ _ _ _ (Invariant hash) .initial ?_ _ reached
  intro s action next inv taken _
  obtain ⟨after, acted, rfl⟩ := Option.map_eq_some_iff.mp taken
  obtain ⟨t, step⟩ := step_of_act acted
  exact inv.step step

end Run

end

/-- Once a task has stored to a word and completed a `wake_proc` for all on its offset, whoever
is queued on the offset compared the word after the store; and the counter of a bucket is the
number of its entries and of those in transit. -/
theorem no_lost_wakeup {Thread Bucket : Type} [Fintype Thread] [DecidableEq Thread]
    [DecidableEq Bucket] {hash : BitVec 64 → Bucket} {word : BitVec 64 → BitVec 64}
    {key : Thread → BitVec 64} {prio : Thread → Nat} {lockPtr : Thread → Option Bucket}
    {s : State Thread Bucket}
    (reached : (futexMachine hash word key prio lockPtr).Reachable (fun _ _ _ => True) s) :
    (∀ store ∈ s.stores, ∀ wake, (store.thread, wake) ∈ s.woken → wake.offset = store.offset →
      wake.wt = .all → store.time < wake.start →
      ∀ b, ∀ t ∈ s.chain b, s.key t = store.offset → store.time < s.comparedAt t) ∧
    ∀ b, s.waiters b = (s.chain b).length +
      (Finset.univ.filter fun t => (s.pc t).transit hash = some b).card := by
  have inv := invariant_of_reachable reached
  refine ⟨?_, fun b => ?_⟩
  · intro store _ wake complete sameOffset all after b t queued onOffset
    have bucket := (inv.tidy.member b t queued).2.1
    rw [← bucket, onOffset, ← sameOffset] at queued
    have compared :=
      inv.timely.fresh _ complete all t (.inl queued) (onOffset.trans sameOffset.symm)
    exact after.trans compared
  · rw [inv.counted b, count_eq_card]
    rfl

/-- Task `false` waits for a change of the word at offset 8, task `true` changes it and wakes
all, and the first one waits for the next change. -/
def changeAndWake : List (Action Bool) :=
  .wait false ⟨8, 5, 100⟩ :: List.replicate 6 (.advance false false) ++
    .store true 8 6 :: .wake true 8 .all :: List.replicate 10 (.advance true false) ++
    List.replicate 2 (.advance false false) ++
    .wait false ⟨8, 6, 100⟩ :: List.replicate 6 (.advance false false)

def changedWord : State Bool Unit :=
  (futexMachine (fun _ => ()) (fun _ => 5) (fun _ => 0) (fun _ => 0) (fun _ => none)).final
    changeAndWake

theorem no_lost_wakeup_changeAndWake :
    changedWord.woken = [(true, ⟨8, .all, 8⟩)] ∧ changedWord.chain () = [false] ∧
      7 < changedWord.comparedAt false ∧ changedWord.waiters () =
        ((changedWord.chain ()).length : Int) +
          (Finset.univ.filter fun t =>
            (changedWord.pc t).transit (fun _ => ()) = some ()).card := by
  have reached : (futexMachine (fun _ => ()) (fun _ => 5) (fun _ => 0) (fun _ => 0)
      (fun _ => none)).Reachable (fun _ _ _ => True) changedWord :=
    Machine.reachable_final (fun _ _ _ => true) (fun _ _ _ _ => trivial) changeAndWake
      (by decide +kernel)
  have woken : changedWord.woken = [(true, ⟨8, .all, 8⟩)] := by decide +kernel
  have chain : changedWord.chain () = [false] := by decide +kernel
  have stored : (⟨true, 8, 6, 7⟩ : Store Bool) ∈ changedWord.stores := by
    rw [show changedWord.stores = [⟨true, 8, 6, 7⟩] from rfl]
    exact List.mem_singleton_self _
  obtain ⟨compared, counts⟩ := no_lost_wakeup reached
  refine ⟨woken, chain, ?_, counts ()⟩
  exact compared _ stored ⟨8, .all, 8⟩ (by rw [woken]; exact List.mem_singleton_self _) rfl rfl
    (by decide) () false (by rw [chain]; exact List.mem_singleton_self _) (by decide +kernel)

end Lupin.Queue.Futex
