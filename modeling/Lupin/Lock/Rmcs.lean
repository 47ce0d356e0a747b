import Mathlib.Data.List.Nodup
import Mathlib.Logic.Function.Basic
import Lupin.Lib.LaggingQueue
import Lupin.Lib.Transition

/-!
# The RMCS lock of the benchmarks

`rmcs_lock` and `rmcs_unlock` with one queue node for each thread, every load, store, exchange
and compare and exchange being one step. The queue of the threads that have exchanged the tail is
nowhere in memory: a thread knows its successor only once the successor has stored itself into
`next`. The benchmarks leave `clean_cnt` and `clean_in_prog` as they are set at the start.
-/

namespace Lupin.Lock.Rmcs

open Lupin.LaggingQueue Lupin.Transition

inductive LockStatus where
  | waiting | owned | released
deriving DecidableEq, Repr

/-- `struct Qnode`; nodes are named by their threads, and there is one lock for `wants`. -/
structure Qnode (Thread : Type) where
  next : Option Thread
  locked : LockStatus
  wants : Bool
  vol : Bool

/-- Where a thread is. -/
inductive Pc (Thread : Type) where
  | idle
  /-- `rmcs_lock`. -/
  | clearNext
  | setVol
  | setWants
  | checkClean
  | setWaiting
  | exchange
  /-- `pred->next = mynode`. -/
  | link (pred : Thread)
  | clearVol
  | spin
  /-- There was no predecessor. -/
  | setOwned
  | clearVolOwned
  /-- `rmcs_lock` has returned. -/
  | critical
  /-- `rmcs_unlock`. -/
  | unlockVol
  | unlockCheck
  | setReleased
  | readNext
  | casTail
  | doneVol
  | doneWants
  /-- Another thread is in the queue; `cc` is the value of `clean_cnt`. -/
  | readCount
  | waitVol (cc : Int)
  | spinNext (cc : Int)
  | spinCount (cc : Int)
  | spinClean (cc : Int)
  | rejoinVol (cc : Int)
  | recheckClean (cc : Int)
  | recheckCount (cc : Int)
  /-- `mynode->next->locked = OWNED`, the load and the store. -/
  | loadNext
  | handOver (next : Thread)
  | endVol
  | endWants
  /-- An `assert(0)` was reached. -/
  | asserted
  | nullDereference

structure State (Thread : Type) where
  nodes : Thread → Qnode Thread
  tail : Option Thread
  cleanCnt : Int
  cleanInProg : Bool
  pc : Thread → Pc Thread
  /-- The threads in the order of their exchanges of the tail, and in the order in which their
  calls of `rmcs_lock` returned. -/
  exchanges : List Thread
  entries : List Thread

variable {Thread : Type} [DecidableEq Thread]

namespace State

def goto (s : State Thread) (t : Thread) (pc : Pc Thread) : State Thread :=
  { s with pc := Function.update s.pc t pc }

/-- A store to a node. -/
def write (s : State Thread) (t : Thread) (node : Qnode Thread) : State Thread :=
  { s with nodes := Function.update s.nodes t node }

/-- `rmcs_lock` returns. -/
def enter (s : State Thread) (t : Thread) : State Thread :=
  { s.goto t .critical with entries := s.entries ++ [t] }

/-- The next step of a thread that is in one of the two calls. -/
def advance (s : State Thread) (t : Thread) : Option (State Thread) :=
  let node := s.nodes t
  match s.pc t with
  | .idle | .critical | .asserted | .nullDereference => none
  | .clearNext => some ((s.write t { node with next := none }).goto t .setVol)
  | .setVol => some ((s.write t { node with vol := true }).goto t .setWants)
  | .setWants => some ((s.write t { node with wants := true }).goto t .checkClean)
  | .checkClean => some (s.goto t (if s.cleanInProg then .asserted else .setWaiting))
  | .setWaiting => some ((s.write t { node with locked := .waiting }).goto t .exchange)
  | .exchange =>
      some ({ s with tail := some t, exchanges := s.exchanges ++ [t] }.goto t
        (match s.tail with
        | none => .setOwned
        | some pred => .link pred))
  | .link pred => some ((s.write pred { s.nodes pred with next := some t }).goto t .clearVol)
  | .clearVol => some ((s.write t { node with vol := false }).goto t .spin)
  | .spin => some (if node.locked ≠ .owned then s else s.enter t)
  | .setOwned => some ((s.write t { node with locked := .owned }).goto t .clearVolOwned)
  | .clearVolOwned => some ((s.write t { node with vol := false }).enter t)
  | .unlockVol => some ((s.write t { node with vol := true }).goto t .unlockCheck)
  | .unlockCheck => some (s.goto t (if s.cleanInProg then .asserted else .setReleased))
  | .setReleased => some ((s.write t { node with locked := .released }).goto t .readNext)
  | .readNext => some (s.goto t (if node.next = none then .casTail else .loadNext))
  | .casTail =>
      if s.tail = some t then some ({ s with tail := none }.goto t .doneVol)
      else some (s.goto t .readCount)
  | .doneVol => some ((s.write t { node with vol := false }).goto t .doneWants)
  | .doneWants => some ((s.write t { node with wants := false }).goto t .idle)
  | .readCount => some (s.goto t (.waitVol s.cleanCnt))
  | .waitVol cc => some ((s.write t { node with vol := false }).goto t (.spinNext cc))
  | .spinNext cc => some (s.goto t (if node.next = none then .spinCount cc else .rejoinVol cc))
  | .spinCount cc => some (s.goto t (if cc = s.cleanCnt then .spinClean cc else .rejoinVol cc))
  | .spinClean cc => some (s.goto t (if s.cleanInProg = false then .spinNext cc else .rejoinVol cc))
  | .rejoinVol cc => some ((s.write t { node with vol := true }).goto t (.recheckClean cc))
  | .recheckClean cc => some (s.goto t (if s.cleanInProg then .asserted else .recheckCount cc))
  | .recheckCount cc => some (s.goto t (if cc ≠ s.cleanCnt then .asserted else .loadNext))
  | .loadNext =>
      some (s.goto t
        (match node.next with
        | none => .nullDereference
        | some next => .handOver next))
  | .handOver next => some ((s.write next { s.nodes next with locked := .owned }).goto t .endVol)
  | .endVol => some ((s.write t { node with vol := false }).goto t .endWants)
  | .endWants => some ((s.write t { node with wants := false }).goto t .idle)

end State

inductive Action (Thread : Type) where
  | lock (t : Thread)
  | unlock (t : Thread)
  | advance (t : Thread)

/-- Threads that alternate `rmcs_lock` and `rmcs_unlock`, with the lock free at first. -/
def rmcsMachine (nodes : Thread → Qnode Thread) (cleanCnt : Int) :
    Machine (State Thread) (Action Thread) where
  initial := ⟨nodes, none, cleanCnt, false, fun _ => .idle, [], []⟩
  step s
    | .lock t =>
        match s.pc t with
        | .idle => some (s.goto t .clearNext)
        | _ => none
    | .unlock t =>
        match s.pc t with
        | .critical => some (s.goto t .unlockVol)
        | _ => none
    | .advance t => s.advance t

/-! ## The queue -/

inductive Role where
  | out | waits | owns
deriving DecidableEq

/-- A thread is in the queue from its exchange until it clears the tail or hands over. -/
def Pc.role : Pc Thread → Role
  | .link _ | .clearVol | .spin => .waits
  | .setOwned | .clearVolOwned | .critical | .unlockVol | .unlockCheck | .setReleased | .readNext
  | .casTail | .readCount | .waitVol _ | .spinNext _ | .spinCount _ | .spinClean _ | .rejoinVol _
  | .recheckClean _ | .recheckCount _ | .loadNext | .handOver _ => .owns
  | _ => .out

/-- The predecessor that the thread has still to tell. -/
def Pc.joining : Pc Thread → Option Thread
  | .link pred => some pred
  | _ => none

/-- The thread has returned from `rmcs_lock` and is in the queue. -/
def Pc.entered : Pc Thread → Bool
  | .critical | .unlockVol | .unlockCheck | .setReleased | .readNext
  | .casTail | .readCount | .waitVol _ | .spinNext _ | .spinCount _ | .spinClean _ | .rejoinVol _
  | .recheckClean _ | .recheckCount _ | .loadNext | .handOver _ => true
  | _ => false

/-- What a thread at a place knows of its own node and of `clean_cnt`. -/
def Placed (node : Qnode Thread) (cleanCnt : Int) : Pc Thread → Prop
  | .setVol | .setWants | .checkClean | .setWaiting => node.next = none
  | .exchange => node.next = none ∧ node.locked = .waiting
  | .waitVol cc | .spinNext cc | .spinCount cc | .spinClean cc => cc = cleanCnt
  | .rejoinVol cc | .recheckClean cc | .recheckCount cc => cc = cleanCnt ∧ node.next ≠ none
  | .loadNext => node.next ≠ none
  | .handOver next => node.next = some next
  | .asserted | .nullDereference => False
  | _ => True

/-- `departed` have left the queue, and `queue` is in it, in the order of their exchanges. -/
structure Queued (s : State Thread) (departed queue : List Thread) : Prop where
  exchanges : s.exchanges = departed ++ queue
  entries : s.entries = departed ++ queue.filter fun t => (s.pc t).entered
  distinct : queue.Nodup
  mem_queue : ∀ t, t ∈ queue ↔ (s.pc t).role ≠ .out
  tail : s.tail = queue.getLast?
  lagging : Lagging (fun t => (s.nodes t).next) (fun t => (s.pc t).joining) queue
  /-- The first one owns the lock or was told so. -/
  first : ∀ t ∈ queue.head?, (s.pc t).role = .owns ∨
    ((s.pc t).joining = none ∧ (s.nodes t).locked = .owned)
  others : ∀ t ∈ queue.tail, (s.pc t).role = .waits ∧ (s.nodes t).locked = .waiting
  placed : ∀ t, Placed (s.nodes t) s.cleanCnt (s.pc t)
  notCleaning : s.cleanInProg = false

section Places

omit [DecidableEq Thread]

variable {pred : Thread}

@[simp] theorem Pc.role_link : (Pc.link pred).role = .waits := rfl
@[simp] theorem Pc.role_setOwned : (Pc.setOwned : Pc Thread).role = .owns := rfl
@[simp] theorem Pc.role_critical : (Pc.critical : Pc Thread).role = .owns := rfl
@[simp] theorem Pc.role_doneVol : (Pc.doneVol : Pc Thread).role = .out := rfl
@[simp] theorem Pc.role_endVol : (Pc.endVol : Pc Thread).role = .out := rfl
@[simp] theorem Pc.joining_link : (Pc.link pred).joining = some pred := rfl
@[simp] theorem Pc.joining_clearVol : (Pc.clearVol : Pc Thread).joining = none := rfl
@[simp] theorem Pc.entered_critical : (Pc.critical : Pc Thread).entered = true := rfl
@[simp] theorem Pc.entered_casTail : (Pc.casTail : Pc Thread).entered = true := rfl
@[simp] theorem Pc.entered_handOver : (Pc.handOver pred).entered = true := rfl

end Places

section Step

variable {s : State Thread} {departed queue : List Thread} {t : Thread} {p q : Pc Thread}
variable {node : Qnode Thread}

omit [DecidableEq Thread] in
theorem Queued.mem_of_role (inv : Queued s departed queue) (here : s.pc t = p)
    (inside : p.role ≠ .out) : t ∈ queue :=
  (inv.mem_queue t).mpr (by rwa [here])

/-- What a thread's step leaves the same for itself is the same for all. -/
theorem proj_update {α β : Type} (proj : α → β) {values : Thread → α} {value : α}
    (same : proj value = proj (values t)) (x : Thread) :
    proj (Function.update values t value x) = proj (values x) := by
  rcases eq_or_ne x t with rfl | apart
  · rw [Function.update_self, same]
  · rw [Function.update_of_ne apart]

/-- A store to the thread's own node that the queue does not depend on. -/
theorem Queued.own (inv : Queued s departed queue) (here : s.pc t = p) (role : q.role = p.role)
    (joining : q.joining = p.joining) (entered : q.entered = p.entered)
    (next : p.role ≠ .out → node.next = (s.nodes t).next)
    (locked : p.role = .waits → node.locked = (s.nodes t).locked)
    (placed : Placed node s.cleanCnt q) :
    Queued ((s.write t node).goto t q) departed queue := by
  have roles := proj_update Pc.role (role.trans (congrArg Pc.role here.symm))
  have joinings := proj_update Pc.joining (joining.trans (congrArg Pc.joining here.symm))
  have entereds := proj_update Pc.entered (entered.trans (congrArg Pc.entered here.symm))
  have lockeds : ∀ x, (s.pc x).role = .waits →
      (Function.update s.nodes t node x).locked = (s.nodes x).locked := fun x waits => by
    rcases eq_or_ne x t with rfl | apart
    · rw [Function.update_self, locked (by rwa [here] at waits)]
    · rw [Function.update_of_ne apart]
  constructor
  case exchanges => exact inv.exchanges
  case entries => simpa only [State.goto, State.write, entereds] using inv.entries
  case distinct => exact inv.distinct
  case mem_queue => simpa only [State.goto, State.write, roles] using inv.mem_queue
  case tail => exact inv.tail
  case lagging =>
    refine inv.lagging.congr (fun x member => ?_) fun x _ => joinings x
    rcases eq_or_ne x t with rfl | apart
    · have inside := (inv.mem_queue x).mp member
      rw [here] at inside
      simp only [State.goto, State.write, Function.update_self, next inside]
    · simp only [State.goto, State.write, Function.update_of_ne apart]
  case first =>
    intro x isFirst
    simp only [State.goto, State.write, roles, joinings]
    have inside := (inv.mem_queue x).mp (List.mem_of_mem_head? isFirst)
    rcases inv.first x isFirst with owns | ⟨joined, told⟩
    · exact .inl owns
    · cases ofX : (s.pc x).role with
      | out => exact absurd ofX inside
      | owns => exact .inl rfl
      | waits => exact .inr ⟨joined, (lockeds x ofX).trans told⟩
  case others =>
    intro x member
    obtain ⟨waits, waiting⟩ := inv.others x member
    simp only [State.goto, State.write, roles]
    exact ⟨waits, (lockeds x waits).trans waiting⟩
  case placed =>
    intro x
    rcases eq_or_ne x t with rfl | apart
    · simpa only [State.goto, State.write, Function.update_self] using placed
    · simpa only [State.goto, State.write, Function.update_of_ne apart] using inv.placed x
  case notCleaning => exact inv.notCleaning

/-- A step that only reads. -/
theorem Queued.goto (inv : Queued s departed queue) (here : s.pc t = p) (role : q.role = p.role)
    (joining : q.joining = p.joining) (entered : q.entered = p.entered)
    (placed : Placed (s.nodes t) s.cleanCnt q) : Queued (s.goto t q) departed queue := by
  have own := inv.own here role joining entered (fun _ => rfl) (fun _ => rfl) placed
  rwa [State.write, Function.update_eq_self] at own

omit [DecidableEq Thread] in
/-- Who does not wait to be told is the first one. -/
theorem Queued.first_of_not_waiting (inv : Queued s departed queue) (member : t ∈ queue)
    (notWaiting : (s.pc t).role = .owns ∨ (s.nodes t).locked = .owned) :
    ∃ rest, queue = t :: rest := by
  cases queue with
  | nil => cases member
  | cons first rest =>
      rcases List.mem_cons.mp member with rfl | later
      · exact ⟨rest, rfl⟩
      · obtain ⟨waits, waiting⟩ := inv.others t later
        rcases notWaiting with owns | owned
        · cases waits.symm.trans owns
        · cases waiting.symm.trans owned

omit [DecidableEq Thread] in
theorem Queued.first_of_owns (inv : Queued s departed queue) (owns : (s.pc t).role = .owns) :
    ∃ rest, queue = t :: rest :=
  inv.first_of_not_waiting ((inv.mem_queue t).mpr (by rw [owns]; exact Role.noConfusion))
    (.inl owns)

omit [DecidableEq Thread] in
theorem entered_of_waits {pc : Pc Thread} (waits : pc.role = .waits) : pc.entered = false := by
  cases pc <;> first | rfl | cases waits

omit [DecidableEq Thread] in
/-- Nobody behind the first one has entered. -/
theorem Queued.filter_entered {rest : List Thread} (inv : Queued s departed (t :: rest)) :
    rest.filter (fun x => (s.pc x).entered) = [] :=
  List.filter_eq_nil_iff.mpr fun x member => by
    simp [entered_of_waits (inv.others x member).1]

/-- `rmcs_lock` returns to the first one. -/
theorem Queued.enter {rest : List Thread} (inv : Queued s departed (t :: rest))
    (notEntered : (s.pc t).entered = false) (next : node.next = (s.nodes t).next) :
    Queued ((s.write t node).enter t) departed (t :: rest) := by
  obtain ⟨notLater, _⟩ := List.nodup_cons.mp inv.distinct
  have apart : ∀ x ∈ rest, x ≠ t := fun x member same => notLater (same ▸ member)
  have others : ∀ x ∈ rest, Function.update s.pc t .critical x = s.pc x := fun x member =>
    Function.update_of_ne (apart x member) _ _
  have entries : s.entries = departed := by
    simpa [inv.filter_entered, notEntered] using inv.entries
  have now : (t :: rest).filter (fun x => (Function.update s.pc t .critical x).entered) = [t] := by
    rw [List.filter_cons_of_pos (by simp), List.filter_congr fun x member => by
      rw [others x member], inv.filter_entered]
  constructor
  case exchanges => exact inv.exchanges
  case entries => simp only [State.enter, State.goto, State.write, entries, now]
  case distinct => exact inv.distinct
  case mem_queue =>
    intro x
    rcases eq_or_ne x t with rfl | different
    · simp [State.enter, State.goto]
    · simpa only [State.enter, State.goto, State.write, Function.update_of_ne different]
        using inv.mem_queue x
  case tail => exact inv.tail
  case lagging =>
    refine inv.lagging.congr (fun x _ => ?_) fun x member => ?_
    · rcases eq_or_ne x t with rfl | different
      · simpa only [State.enter, State.goto, State.write, Function.update_self] using next
      · simp only [State.enter, State.goto, State.write, Function.update_of_ne different]
    · simp only [State.enter, State.goto, State.write, others x member]
  case first =>
    intro x isFirst
    obtain rfl := Option.some.inj isFirst
    simp [State.enter, State.goto]
  case others =>
    intro x member
    simpa only [State.enter, State.goto, State.write, others x member,
      Function.update_of_ne (apart x member)] using inv.others x member
  case placed =>
    intro x
    rcases eq_or_ne x t with rfl | different
    · simp only [State.enter, State.goto, Function.update_self]
      trivial
    · simpa only [State.enter, State.goto, State.write, Function.update_of_ne different]
        using inv.placed x
  case notCleaning => exact inv.notCleaning

/-- The thread exchanges the tail. -/
theorem Queued.exchange (inv : Queued s departed queue) (here : s.pc t = .exchange) :
    Queued ({ s with tail := some t, exchanges := s.exchanges ++ [t] }.goto t
      (match s.tail with
      | none => .setOwned
      | some pred => .link pred)) departed (queue ++ [t]) := by
  have fresh : t ∉ queue := fun member => (inv.mem_queue t).mp member (by rw [here]; rfl)
  obtain ⟨alone, waiting⟩ : (s.nodes t).next = none ∧ (s.nodes t).locked = .waiting := by
    have placed := inv.placed t
    rwa [here] at placed
  generalize place : (match s.tail with
    | none => Pc.setOwned
    | some pred => .link pred) = q
  have queuedUp : q.role ≠ .out ∧ q.entered = false ∧ Placed (s.nodes t) s.cleanCnt q := by
    rw [← place]
    split
    · exact ⟨Role.noConfusion, rfl, trivial⟩
    · exact ⟨Role.noConfusion, rfl, trivial⟩
  have same : ∀ x ∈ queue, Function.update s.pc t q x = s.pc x := by
    intro x member
    have apart : x ≠ t := fun isT => fresh (isT ▸ member)
    exact Function.update_of_ne apart _ _
  constructor
  case exchanges => simp [State.goto, inv.exchanges]
  case entries =>
    have unchanged : queue.filter (fun x => (Function.update s.pc t q x).entered) =
        queue.filter fun x => (s.pc x).entered :=
      List.filter_congr fun x member => by rw [same x member]
    simp [State.goto, List.filter_append, unchanged, queuedUp.2.1, inv.entries]
  case distinct => exact List.nodup_append.mpr ⟨inv.distinct, by simp, by
    intro x member y isT isX
    rw [List.mem_singleton.mp isT] at isX
    exact fresh (isX ▸ member)⟩
  case mem_queue =>
    intro x
    rcases eq_or_ne x t with rfl | different
    · simp [State.goto, queuedUp.1]
    · simpa [State.goto, different] using inv.mem_queue x
  case tail => simp [State.goto]
  case lagging =>
    cases last : queue.getLast? with
    | none =>
        obtain rfl := List.getLast?_eq_none_iff.mp last
        exact alone
    | some pred =>
        rw [inv.tail, last] at place
        refine (inv.lagging.push fresh last alone).congr (fun _ _ => rfl) fun x _ => ?_
        rcases eq_or_ne x t with rfl | different
        · simp [State.goto, ← place]
        · simp [State.goto, different]
  case first =>
    intro x isFirst
    cases queue with
    | nil =>
        obtain rfl := Option.some.inj isFirst
        rw [inv.tail] at place
        simp [State.goto, ← place]
    | cons first rest =>
        obtain rfl := Option.some.inj isFirst
        simpa only [State.goto, same first List.mem_cons_self] using inv.first first rfl
  case others =>
    intro x member
    cases queue with
    | nil => cases member
    | cons first rest =>
        rcases List.mem_append.mp (show x ∈ rest ++ [t] from member) with before | isT
        · simpa only [State.goto, same x (List.mem_cons_of_mem _ before)] using inv.others x before
        · obtain rfl := List.mem_singleton.mp isT
          obtain ⟨pred, last⟩ : ∃ pred, (first :: rest).getLast? = some pred :=
            ⟨_, List.getLast?_eq_some_getLast (List.cons_ne_nil _ _)⟩
          rw [inv.tail, last] at place
          simpa [State.goto, ← place] using waiting
  case placed =>
    intro x
    rcases eq_or_ne x t with rfl | different
    · simpa only [State.goto, Function.update_self] using queuedUp.2.2
    · simpa only [State.goto, Function.update_of_ne different] using inv.placed x
  case notCleaning => exact inv.notCleaning

omit [DecidableEq Thread] in
theorem Placed.linked {pc : Pc Thread} {cleanCnt : Int} (placed : Placed node cleanCnt pc)
    (inside : pc.role ≠ .out) (alone : node.next = none) (x : Thread) :
    Placed { node with next := some x } cleanCnt pc := by
  cases pc with
  | setVol | setWants | checkClean | setWaiting | exchange => exact absurd rfl inside
  | rejoinVol | recheckClean | recheckCount => exact ⟨placed.1, Option.some_ne_none x⟩
  | loadNext => exact Option.some_ne_none x
  | handOver next => cases Eq.trans (Eq.symm alone) placed
  | _ => exact placed

omit [DecidableEq Thread] in
theorem Placed.owned {pc : Pc Thread} {cleanCnt : Int} (placed : Placed node cleanCnt pc)
    (inside : pc.role ≠ .out) : Placed { node with locked := .owned } cleanCnt pc := by
  cases pc with
  | exchange => exact absurd rfl inside
  | _ => exact placed

/-- The thread tells its predecessor. -/
theorem Queued.link (inv : Queued s departed queue) {pred : Thread} (here : s.pc t = .link pred) :
    Queued ((s.write pred { s.nodes pred with next := some t }).goto t .clearVol) departed
      queue := by
  have member : t ∈ queue := inv.mem_of_role here Role.noConfusion
  have later : t ∈ queue.tail := by
    cases queue with
    | nil => cases member
    | cons first rest =>
        rcases List.mem_cons.mp member with rfl | behind
        · have isFirst := inv.first t rfl
          simp [here] at isFirst
        · exact behind
  have joins : (s.pc t).joining = some pred := by rw [here]; rfl
  obtain ⟨predIn, alone⟩ := inv.lagging.predecessor later joins
  have sameRole : (Pc.clearVol : Pc Thread).role = (s.pc t).role := by rw [here]; rfl
  have sameEntered : (Pc.clearVol : Pc Thread).entered = (s.pc t).entered := by rw [here]; rfl
  have roles := proj_update Pc.role sameRole
  have entereds := proj_update Pc.entered sameEntered
  have lockeds : ∀ x, (Function.update s.nodes pred { s.nodes pred with next := some t } x).locked =
      (s.nodes x).locked := proj_update Qnode.locked rfl
  constructor
  case exchanges => exact inv.exchanges
  case entries => simpa only [State.goto, State.write, entereds] using inv.entries
  case distinct => exact inv.distinct
  case mem_queue => simpa only [State.goto, State.write, roles] using inv.mem_queue
  case tail => exact inv.tail
  case lagging =>
    refine (inv.lagging.link inv.distinct later joins).congr (fun x _ => ?_) fun x _ => ?_
    · rcases eq_or_ne x pred with rfl | apart
      · simp [State.goto, State.write]
      · simp [State.goto, State.write, apart]
    · rcases eq_or_ne x t with rfl | apart
      · simp [State.goto]
      · simp [State.goto, State.write, apart]
  case first =>
    intro x isFirst
    have apart : x ≠ t := by
      rintro rfl
      have ofFirst := inv.first x isFirst
      simp [here] at ofFirst
    simpa only [State.goto, State.write, roles, lockeds, Function.update_of_ne apart]
      using inv.first x isFirst
  case others =>
    intro x inTail
    simpa only [State.goto, State.write, roles, lockeds] using inv.others x inTail
  case placed =>
    intro x
    rcases eq_or_ne x t with rfl | apart
    · simp only [State.goto, Function.update_self]
      trivial
    · rcases eq_or_ne x pred with rfl | notPred
      · simpa only [State.goto, State.write, Function.update_self, Function.update_of_ne apart]
          using (inv.placed x).linked ((inv.mem_queue x).mp predIn) alone t
      · simpa only [State.goto, State.write, Function.update_of_ne notPred,
          Function.update_of_ne apart] using inv.placed x
  case notCleaning => exact inv.notCleaning

/-- The last thread clears the tail. -/
theorem Queued.clear (inv : Queued s departed queue) (here : s.pc t = .casTail)
    (last : s.tail = some t) :
    Queued ({ s with tail := none }.goto t .doneVol) (departed ++ queue) [] := by
  obtain ⟨rest, rfl⟩ := inv.first_of_owns (t := t) (by rw [here]; rfl)
  obtain rfl : rest = [] := by
    cases rest with
    | nil => rfl
    | cons second behind =>
        rw [inv.tail, List.getLast?_cons_cons] at last
        exact absurd (List.mem_of_getLast? last) (List.nodup_cons.mp inv.distinct).1
  constructor
  case exchanges => simpa [State.goto] using inv.exchanges
  case entries => simpa [State.goto, here] using inv.entries
  case distinct => exact List.nodup_nil
  case mem_queue =>
    intro x
    rcases eq_or_ne x t with rfl | different
    · simp [State.goto]
    · simpa [State.goto, different] using inv.mem_queue x
  case tail => rfl
  case lagging => trivial
  case first => simp
  case others => simp
  case placed =>
    intro x
    rcases eq_or_ne x t with rfl | different
    · simp only [State.goto, Function.update_self]
      trivial
    · simpa only [State.goto, Function.update_of_ne different] using inv.placed x
  case notCleaning => exact inv.notCleaning

/-- The lock goes to the successor. -/
theorem Queued.handOver (inv : Queued s departed queue) {next : Thread}
    (here : s.pc t = .handOver next) :
    ∃ rest, queue = t :: next :: rest ∧
      Queued ((s.write next { s.nodes next with locked := .owned }).goto t .endVol)
        (departed ++ [t]) (next :: rest) := by
  obtain ⟨behind, rfl⟩ := inv.first_of_owns (t := t) (by rw [here]; rfl)
  have known : (s.nodes t).next = some next := by
    have placed := inv.placed t
    rwa [here] at placed
  obtain ⟨rest, rfl, joined⟩ := inv.lagging.second known
  refine ⟨rest, rfl, ?_⟩
  obtain ⟨notLater, distinct⟩ := List.nodup_cons.mp inv.distinct
  have apart : ∀ x ∈ next :: rest, x ≠ t := fun x member same => notLater (same ▸ member)
  have same : ∀ x ∈ next :: rest, Function.update s.pc t .endVol x = s.pc x := fun x member =>
    Function.update_of_ne (apart x member) _ _
  have noneEntered := inv.filter_entered
  constructor
  case exchanges => simpa [State.goto, State.write] using inv.exchanges
  case entries =>
    have later : (next :: rest).filter (fun x => (Function.update s.pc t .endVol x).entered) = [] :=
      (List.filter_congr fun x member => by rw [same x member]).trans noneEntered
    have before : s.entries = departed ++ [t] := by
      rw [inv.entries, List.filter_cons_of_pos (by simp [here]), noneEntered]
    simp only [State.goto, State.write, later, before, List.append_nil]
  case distinct => exact distinct
  case mem_queue =>
    intro x
    rcases eq_or_ne x t with rfl | different
    · simpa [State.goto] using notLater
    · simpa [State.goto, State.write, different] using inv.mem_queue x
  case tail =>
    have last := inv.tail
    rwa [List.getLast?_cons_cons] at last
  case lagging =>
    refine inv.lagging.pop.congr (fun x _ => ?_) fun x member => ?_
    · rcases eq_or_ne x next with rfl | different
      · simp [State.goto, State.write]
      · simp [State.goto, State.write, different]
    · simp only [State.goto, State.write, same x (List.mem_cons_of_mem _ member)]
  case first =>
    intro x isFirst
    obtain rfl := Option.some.inj isFirst
    refine .inr ⟨?_, by simp [State.goto, State.write]⟩
    simpa only [State.goto, State.write, same next List.mem_cons_self] using joined
  case others =>
    intro x member
    have notNext : x ≠ next := fun isNext => (List.nodup_cons.mp distinct).1 (isNext ▸ member)
    simpa only [State.goto, State.write, same x (List.mem_cons_of_mem _ member),
      Function.update_of_ne notNext] using inv.others x (List.mem_cons_of_mem _ member)
  case placed =>
    intro x
    rcases eq_or_ne x t with rfl | different
    · simp only [State.goto, Function.update_self]
      trivial
    · rcases eq_or_ne x next with rfl | notNext
      · have inside : (s.pc x).role ≠ .out :=
          (inv.mem_queue x).mp (List.mem_cons_of_mem _ List.mem_cons_self)
        simpa only [State.goto, State.write, Function.update_self, Function.update_of_ne different]
          using (inv.placed x).owned inside
      · simpa only [State.goto, State.write, Function.update_of_ne notNext,
          Function.update_of_ne different] using inv.placed x
  case notCleaning => exact inv.notCleaning

/-- One step inside the two calls. -/
theorem Queued.advance (inv : Queued s departed queue) {after : State Thread}
    (taken : s.advance t = some after) : ∃ departed queue, Queued after departed queue := by
  have placed := inv.placed t
  unfold State.advance at taken
  generalize here : s.pc t = p at taken placed
  cases p with
  | idle | critical | asserted | nullDereference => cases taken
  | clearNext =>
      obtain rfl := Option.some.inj taken
      exact ⟨_, _, inv.own here rfl rfl rfl (fun inside => absurd rfl inside) (fun _ => rfl) rfl⟩
  | setVol | setWants | waitVol | rejoinVol =>
      obtain rfl := Option.some.inj taken
      exact ⟨_, _, inv.own here rfl rfl rfl (fun _ => rfl) (fun _ => rfl) placed⟩
  | clearVol | unlockVol | doneVol | doneWants | endVol | endWants =>
      obtain rfl := Option.some.inj taken
      exact ⟨_, _, inv.own here rfl rfl rfl (fun _ => rfl) (fun _ => rfl) trivial⟩
  | setWaiting =>
      obtain rfl := Option.some.inj taken
      exact ⟨_, _, inv.own here rfl rfl rfl (fun _ => rfl) Role.noConfusion ⟨placed, rfl⟩⟩
  | setOwned | setReleased =>
      obtain rfl := Option.some.inj taken
      exact ⟨_, _, inv.own here rfl rfl rfl (fun _ => rfl) Role.noConfusion trivial⟩
  | checkClean =>
      obtain rfl := Option.some.inj taken
      rw [if_neg (by simp [inv.notCleaning])]
      exact ⟨_, _, inv.goto here rfl rfl rfl placed⟩
  | unlockCheck =>
      obtain rfl := Option.some.inj taken
      rw [if_neg (by simp [inv.notCleaning])]
      exact ⟨_, _, inv.goto here rfl rfl rfl trivial⟩
  | exchange =>
      obtain rfl := Option.some.inj taken
      exact ⟨_, _, inv.exchange here⟩
  | link pred =>
      obtain rfl := Option.some.inj taken
      exact ⟨_, _, inv.link here⟩
  | spin =>
      obtain rfl := Option.some.inj taken
      split
      · exact ⟨_, _, inv⟩
      · next owned =>
        obtain ⟨rest, rfl⟩ := inv.first_of_not_waiting
          (inv.mem_of_role here Role.noConfusion) (.inr (not_not.mp owned))
        have entered := inv.enter (by rw [here]; rfl) (rfl : (s.nodes t).next = _)
        rw [State.write, Function.update_eq_self] at entered
        exact ⟨_, _, entered⟩
  | clearVolOwned =>
      obtain rfl := Option.some.inj taken
      obtain ⟨rest, rfl⟩ := inv.first_of_owns (t := t) (by rw [here]; rfl)
      exact ⟨_, _, inv.enter (by rw [here]; rfl) rfl⟩
  | readNext =>
      obtain rfl := Option.some.inj taken
      split
      · exact ⟨_, _, inv.goto here rfl rfl rfl trivial⟩
      next known => exact ⟨_, _, inv.goto here rfl rfl rfl known⟩
  | spinNext cc =>
      obtain rfl := Option.some.inj taken
      split
      · exact ⟨_, _, inv.goto here rfl rfl rfl placed⟩
      next known => exact ⟨_, _, inv.goto here rfl rfl rfl ⟨placed, known⟩⟩
  | casTail =>
      dsimp only at taken
      split at taken
      next last =>
        obtain rfl := Option.some.inj taken
        exact ⟨_, _, inv.clear here last⟩
      next =>
        obtain rfl := Option.some.inj taken
        exact ⟨_, _, inv.goto here rfl rfl rfl trivial⟩
  | readCount =>
      obtain rfl := Option.some.inj taken
      exact ⟨_, _, inv.goto here rfl rfl rfl rfl⟩
  | spinCount cc =>
      obtain rfl := Option.some.inj taken
      have same : cc = s.cleanCnt := placed
      rw [if_pos same]
      exact ⟨_, _, inv.goto here rfl rfl rfl same⟩
  | spinClean cc =>
      obtain rfl := Option.some.inj taken
      rw [if_pos inv.notCleaning]
      exact ⟨_, _, inv.goto here rfl rfl rfl placed⟩
  | recheckClean cc =>
      obtain rfl := Option.some.inj taken
      rw [if_neg (by simp [inv.notCleaning])]
      exact ⟨_, _, inv.goto here rfl rfl rfl placed⟩
  | recheckCount cc =>
      obtain rfl := Option.some.inj taken
      rw [if_neg (not_not.mpr placed.1)]
      exact ⟨_, _, inv.goto here rfl rfl rfl placed.2⟩
  | loadNext =>
      obtain rfl := Option.some.inj taken
      cases known : (s.nodes t).next with
      | none => exact absurd known placed
      | some next => exact ⟨_, _, inv.goto here rfl rfl rfl known⟩
  | handOver next =>
      obtain rfl := Option.some.inj taken
      obtain ⟨rest, _, queued⟩ := inv.handOver here
      exact ⟨_, _, queued⟩

theorem Queued.step (inv : Queued s departed queue) {nodes : Thread → Qnode Thread}
    {cleanCnt : Int} {action : Action Thread} {after : State Thread}
    (taken : (rmcsMachine nodes cleanCnt).step s action = some after) :
    ∃ departed queue, Queued after departed queue := by
  cases action with
  | advance t => exact inv.advance taken
  | lock t =>
      simp only [rmcsMachine] at taken
      split at taken
      next here =>
        obtain rfl := Option.some.inj taken
        exact ⟨_, _, inv.goto here rfl rfl rfl trivial⟩
      next => cases taken
  | unlock t =>
      simp only [rmcsMachine] at taken
      split at taken
      next here =>
        obtain rfl := Option.some.inj taken
        exact ⟨_, _, inv.goto here rfl rfl rfl trivial⟩
      next => cases taken

end Step

/-- Mutual exclusion, entry in the order of the exchanges, and no null dereference. -/
theorem rmcs_exclusive_fifo {Thread : Type} [DecidableEq Thread] {nodes : Thread → Qnode Thread}
    {cleanCnt : Int} {s : State Thread}
    (reached : (rmcsMachine nodes cleanCnt).Reachable (fun _ _ _ => True) s) :
    (∀ t u, s.pc t = .critical → s.pc u = .critical → t = u) ∧
    (∃ waiting, s.exchanges = s.entries ++ waiting) ∧
    ∀ t, s.pc t ≠ .nullDereference ∧ s.pc t ≠ .asserted := by
  obtain ⟨departed, queue, inv⟩ : ∃ departed queue, Queued s departed queue := by
    refine @Machine.Reachable.invariant _ _ _ _ (fun s => ∃ departed queue, Queued s departed queue)
      ⟨[], [], ?_⟩ ?_ _ reached
    · refine ⟨rfl, rfl, List.nodup_nil, fun t => ?_, rfl, trivial, ?_, ?_, fun _ => trivial, rfl⟩
      · exact ⟨nofun, fun inside => absurd rfl inside⟩
      · intro t isFirst
        cases isFirst
      · intro t member
        cases member
    · rintro s action next ⟨departed, queue, inv⟩ taken _
      exact inv.step taken
  have first : ∀ t, s.pc t = .critical → ∃ rest, queue = t :: rest := fun t here =>
    inv.first_of_owns (by rw [here]; rfl)
  refine ⟨fun t u tIn uIn => ?_, ?_, fun t => ⟨fun here => ?_, fun here => ?_⟩⟩
  · obtain ⟨_, ofT⟩ := first t tIn
    obtain ⟨_, ofU⟩ := first u uIn
    exact (List.cons.inj (ofT.symm.trans ofU)).1
  · cases queue with
    | nil => exact ⟨[], by simp [inv.exchanges, inv.entries]⟩
    | cons t rest =>
        rw [inv.exchanges, inv.entries]
        cases entered : (s.pc t).entered with
        | true => exact ⟨rest, by simp [entered, inv.filter_entered]⟩
        | false => exact ⟨t :: rest, by simp [entered, inv.filter_entered]⟩
  · have placed := inv.placed t
    rwa [here] at placed
  · have placed := inv.placed t
    rwa [here] at placed

/-- Thread `false` takes the lock, thread `true` exchanges the tail behind it and the first waits
for the link before it hands over. -/
def handedOver : List (Action Bool) :=
  .lock false :: List.replicate 8 (.advance false) ++
    .lock true :: List.replicate 6 (.advance true) ++
    .unlock false :: List.replicate 10 (.advance false) ++ List.replicate 2 (.advance true) ++
    List.replicate 7 (.advance false) ++ [.advance true]

/-- The state in which thread `true` has the lock. -/
def handedOverState : State Bool :=
  (rmcsMachine (fun _ => ⟨none, .waiting, false, false⟩) 0).final handedOver

theorem rmcs_exclusive_fifo_handedOver :
    handedOverState.exchanges = [false, true] ∧ handedOverState.entries = [false, true] ∧
      (∀ t u, handedOverState.pc t = .critical → handedOverState.pc u = .critical → t = u) := by
  refine ⟨by decide +kernel, by decide +kernel, (rmcs_exclusive_fifo (Machine.reachable_final
    (fun _ _ _ => true) (fun _ _ _ _ => trivial) handedOver (by decide +kernel))).1⟩

end Lupin.Lock.Rmcs
