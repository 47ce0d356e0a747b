import Lupin.Alloc.Serve
import Lupin.Lib.Transition

/-!
# Machines that share the allocator

One machine sets the mapping up, the others come in with `recover_meta`, and all of them serve
their clients. The calls hold `meta_lock`, so they run one after the other, in whatever order.
A machine may die in a call. The lock is taken over then by this machine once it is back in
`recover_meta`, or by another one that finds it dead in `do_os_failure_detection` and executes the
log in its place. Either of them may die in this again. Clients write to the regions they hold at
any time.
-/

namespace Lupin.Alloc

open Lupin.Memory Lupin.HeapIndex Lupin.LevelTree Lupin.Buddy Lupin.Log Lupin.LinkedList
  Lupin.Transition

/-- Shared memory, `cur_obj_recs` of each machine, the clients' side, and the machine that has
died with `meta_lock`. -/
structure State where
  mem : Mem
  cur : UInt16 → Option Nat
  ledger : Ledger
  dead : Option UInt16

inductive Action where
  | call (machine : UInt16) (request : Request)
  /-- The machine dies after so many stores of the call. -/
  | crash (machine : UInt16) (request : Request) (made : Nat)
  /-- A client writes to the mapping. -/
  | write (store : Store)

/-- The mapping as the machines see it. -/
structure Setting where
  shmem : MetaShmem
  memLength : Nat
  memStart : UInt16 → Nat

/-- `struct meta_dram` of a machine. -/
def Setting.dram (g : Setting) (state : State) (machine : UInt16) : MetaDram :=
  ⟨g.memStart machine, g.memLength, machine.toNat, state.cur machine⟩

def Request.isHelp : Request → Bool
  | .help => true
  | _ => false

/-- `meta_lock` is free, or the machine that has it is dead. That one takes it over in
`recover_meta`, and any other in `do_os_failure_detection`. -/
def State.admits (state : State) (machine : UInt16) (request : Request) : Bool :=
  match state.dead with
  | none => !request.isHelp
  | some dead => request.heals && (request.isHelp == (machine != dead))

/-- The clients' side after a call that is cut short. -/
def Setting.cutShort (g : Setting) (state : State) (machine : UInt16) (request : Request)
    (made : Nat) : Ledger :=
  if made = 0 then state.ledger.abandon request
  else
    match (serve g.shmem (g.dram state machine) request).run state.mem with
    | some (_, reply, _) => state.ledger.interrupt request reply
    | none => state.ledger

def Setting.step (g : Setting) (state : State) : Action → Option State
  | .call machine request =>
      if state.admits machine request then
        ((serve g.shmem (g.dram state machine) request).run state.mem).map fun (mem, reply, cur) =>
          { mem
            cur := Function.update state.cur machine cur
            ledger := state.ledger.settle request reply
            dead := none }
      else none
  | .crash machine request made =>
      if state.admits machine request then
        some
          { mem := (serve g.shmem (g.dram state machine) request).crashed state.mem made
            cur := Function.update state.cur machine none
            ledger := g.cutShort state machine request made
            dead := some machine }
      else none
  | .write store => some { state with mem := state.mem.store store }

/-- Runs from a mapping that one machine has set up in memory that held `prior`. -/
def Setting.machine (g : Setting) (buddySize : Nat) (first : UInt16) (prior : Mem) :
    Machine State Action where
  initial :=
    { mem := (vcxlInitMeta g.shmem buddySize).final prior
      cur := Function.update (fun _ => none) first (some firstRecords)
      ledger := .empty
      dead := none }
  step := g.step

/-- The call may be cut short after so many stores: before the first, or behind the last one to
the tree. -/
def MayCut (b : BuddyAlloc) (call : Shm (Reply × Option Nat)) (m : Mem) (made : Nat) : Prop :=
  made = 0 ∨ (call.run m).isSome ∧ ∀ t ∈ (call.stores m).drop made, t.addr < b.tree.bits

/-- Clients call with care and write to their own regions. Machines die where a call may be
cut short. -/
def Setting.Orderly (g : Setting) : Guard State Action := fun state action _ =>
  match action with
  | .call machine request =>
      Careful g.shmem state.mem (state.cur machine) state.ledger.held request
  | .crash machine request made =>
      Careful g.shmem state.mem (state.cur machine) state.ledger.held request ∧
        MayCut g.shmem.buddyAlloc (serve g.shmem (g.dram state machine) request) state.mem made
  | .write store => ∃ object ∈ state.ledger.held,
      store.Within object.offset (object.offset + object.length)

/-- The byte is written by a client. -/
def Action.Writes (a : Nat) : Action → Prop
  | .write store => store.Covers a
  | _ => False

/-! ## The invariant -/

/-- The state is consistent, or will be once the machine that died has recovered. -/
def Accounted (s : Mapping) (state : State) : Prop :=
  ∃ m pages headers live, Consistent s m state.cur state.ledger pages headers live ∧
    Recovers s pages (heldArea state.ledger.held) state.mem m ∧ (state.dead = none → m = state.mem)

section Steps

variable {s : Mapping} {g : Setting} {state next : State} {m : Mem} {cur : UInt16 → Option Nat}
  {ledger : Ledger} {held : List Object} {pages headers : List Nat} {live : List (Nat × Nat)}
  {machine : UInt16}

/-- A client that gave a region up does not come back to it. -/
theorem Consistent.abandon (consistent : Consistent s m cur ledger pages headers live)
    {shmem : MetaShmem} {m' : Mem} {curObjRecs : Option Nat} {request : Request}
    (careful : Careful shmem m' curObjRecs ledger.held request) :
    Consistent s m cur (ledger.abandon request) pages headers live ∧
      (ledger.abandon request).held ⊆ ledger.held := by
  cases request with
  | free region => exact ⟨consistent.forsake careful, List.erase_subset⟩
  | _ => exact ⟨consistent, List.Subset.refl _⟩

/-- Nobody learns of a region that is allocated for a machine that died. -/
theorem Consistent.interrupt {request : Request} {reply : Reply}
    (consistent : Consistent s m cur (ledger.settle request reply) pages headers live) :
    Consistent s m cur (ledger.interrupt request reply) pages headers live ∧
      (ledger.interrupt request reply).held ⊆ (ledger.settle request reply).held := by
  unfold Ledger.settle at consistent ⊢
  unfold Ledger.interrupt
  split at consistent
  · exact ⟨consistent.forsake List.mem_cons_self, List.erase_subset⟩
  · exact ⟨consistent.forsake List.mem_cons_self, List.erase_subset⟩
  · exact ⟨consistent, List.Subset.refl _⟩
  · exact ⟨consistent, List.Subset.refl _⟩

/-- A machine that dies forgets its page. -/
theorem Consistent.forget (consistent : Consistent s m cur ledger pages headers live)
    (machine : UInt16) :
    Consistent s m (Function.update cur machine none) ledger pages headers live :=
  ⟨consistent.sound, consistent.directory,
    update_current consistent.current (fun p none => absurd none (by simp)) machine,
    consistent.blocks, consistent.logged⟩

/-- Writes to regions leave the metadata alone. -/
theorem agreeOff_store {store : Store} {object : Object} (isHeld : object ∈ held)
    (within : store.Within object.offset (object.offset + object.length)) (m : Mem) :
    Mem.AgreeOff (heldArea held) m (m.store store) := by
  intro a out
  refine Mem.store_of_not_covers fun covers => out ⟨object, isHeld, ?_⟩
  exact ⟨within.1.trans covers.1, lt_of_lt_of_le covers.2 within.2⟩

/-- The stores and the value of a call that returns. -/
theorem returns_of_run {α : Type} {call : Shm α} {mem : Mem} {value : α}
    (ran : call.run m = some (mem, value)) :
    call.Returns m (call.stores m) value ∧ mem = m.apply (call.stores m) := by
  unfold Shm.run at ran
  obtain ⟨a, isValue, same⟩ := Option.map_eq_some_iff.mp ran
  obtain ⟨rfl, rfl⟩ := Prod.mk.inj same
  exact ⟨Prod.ext rfl isValue, rfl⟩

/-- `recover_meta` comes to the metadata that were set up. -/
def Setting.Located (g : Setting) : Prop :=
  Layout.recoverMetaAddress g.memLength = some g.shmem.base

/-- The setting is that of the mapping. -/
structure Setting.On (g : Setting) (s : Mapping) : Prop where
  shmem : g.shmem = s.shmem
  memLength : g.memLength = s.memLength

theorem Setting.On.joined (on : g.On s) (state : State) (machine : UInt16) :
    Joined s state.cur machine (g.dram state machine) := ⟨on.memLength, rfl, rfl⟩

theorem Setting.On.located (on : g.On s) (located : g.Located) (state : State) (machine : UInt16) :
    Layout.recoverMetaAddress (g.dram state machine).memLength = some s.shmem.base :=
  on.shmem ▸ located

/-- A call with the lock free. -/
theorem Accounted.call (on : g.On s) (accounted : Accounted s state) (alive : state.dead = none)
    {request : Request} (located : request = .recover → g.Located)
    (careful : Careful g.shmem state.mem (state.cur machine) state.ledger.held request)
    {stores : List Store} {reply : Reply} {page : Option Nat}
    (returns : (serve g.shmem (g.dram state machine) request).Returns state.mem stores
      (reply, page)) :
    Leaves s state.mem stores (Function.update state.cur machine page)
      (state.ledger.settle request reply) := by
  obtain ⟨m, pages, headers, live, consistent, settled, now⟩ := accounted
  obtain rfl := now alive
  rw [on.shmem] at careful returns
  exact consistent.serve settled (on.joined state machine)
    (fun joins => on.located (located joins) state machine) careful returns

/-- The bytes of a region that nobody writes to stay as they are. -/
def Keeps (state : State) (action : Action) (next : State) : Prop :=
  ∀ a, heldArea next.ledger.held a → ¬ action.Writes a → next.mem a = state.mem a

theorem Leaves.accounted {stores : List Store} (leaves : Leaves s m stores cur ledger) :
    Accounted s ⟨m.apply stores, cur, ledger, none⟩ ∧
      ∀ a, heldArea ledger.held a → m.apply stores a = m a := by
  obtain ⟨pages, headers, live, consistent, cut⟩ := leaves
  obtain ⟨recovers, kept⟩ := cut _ (List.Subset.refl _) stores.length (by
    rw [List.drop_length]
    exact fun t none => absurd none List.not_mem_nil)
  rw [List.take_length] at recovers kept
  exact ⟨⟨_, pages, headers, live, consistent, recovers, fun _ => rfl⟩, kept⟩

/-- A machine that takes the lock over, and one that dies then. -/
theorem Accounted.heal (on : g.On s) (accounted : Accounted s state) (machine : UInt16)
    {request : Request} (located : request = .recover → g.Located)
    (heals : request.heals = true) :
    ∃ stores reply page, (serve g.shmem (g.dram state machine) request).Returns state.mem stores
        (reply, page) ∧
      Accounted s ⟨state.mem.apply stores, Function.update state.cur machine page, state.ledger,
        none⟩ ∧
      ∀ k, (∀ a, heldArea state.ledger.held a → state.mem.apply (stores.take k) a = state.mem a) ∧
        (s.TreeDone (stores.drop k) → Accounted s ⟨state.mem.apply (stores.take k),
          Function.update state.cur machine none, state.ledger, some machine⟩) := by
  obtain ⟨m, pages, headers, live, consistent, recovers, _⟩ := accounted
  obtain ⟨stores, reply, page, returns, isPage, healed⟩ := consistent.heal recovers
    (on.joined state machine) (fun joins => on.located (located joins) state machine) heals
  rw [← on.shmem] at returns
  refine ⟨stores, reply, page, returns, ⟨_, pages, headers, live,
    healed.consistent.onPage machine isPage, healed.settled, fun _ => rfl⟩, fun k =>
    ⟨healed.kept k, fun done => ⟨m, pages, headers, live, consistent.forget machine,
      healed.cut k done, fun alive => ?_⟩⟩⟩
  exact absurd alive (by simp)

/-- A machine dies before it has made a store. -/
theorem Accounted.die (accounted : Accounted s state) (machine : UInt16) {request : Request}
    (alive : state.dead = none ∨ request.heals = true)
    (careful : Careful g.shmem state.mem (state.cur machine) state.ledger.held request) :
    Accounted s ⟨state.mem, Function.update state.cur machine none, state.ledger.abandon request,
      some machine⟩ := by
  obtain ⟨m, pages, headers, live, consistent, recovers, now⟩ := accounted
  obtain ⟨abandoned, less⟩ := consistent.abandon careful
  refine ⟨m, pages, headers, live, abandoned.forget machine, ?_,
    fun alive => absurd alive (by simp)⟩
  rcases alive with alive | heals
  · obtain rfl := now alive
    exact recovers.shrink (fun a => heldArea_mono less) fun _ _ => rfl
  · rwa [(state.ledger.settle_of_heals heals (.freed 0)).2.2]

theorem State.admits_cases {request : Request} (admitted : state.admits machine request = true) :
    state.dead = none ∨ request.heals = true := by
  unfold State.admits at admitted
  split at admitted
  · exact .inl ‹_›
  · rw [Bool.and_eq_true] at admitted
    exact .inr admitted.1

theorem State.admits_of_alive (alive : state.dead = none) {request : Request}
    (isCall : request.isHelp = false) (machine : UInt16) : state.admits machine request = true := by
  rw [State.admits, alive, isCall]
  rfl

/-- A call that returns, as a step. -/
theorem step_of_returns {request : Request} (admitted : state.admits machine request = true)
    {stores : List Store} {reply : Reply} {page : Option Nat}
    (returns : (serve g.shmem (g.dram state machine) request).Returns state.mem stores
      (reply, page)) :
    g.step state (.call machine request) = some ⟨state.mem.apply stores,
      Function.update state.cur machine page, state.ledger.settle request reply, none⟩ := by
  unfold Setting.step
  dsimp only
  rw [if_pos admitted, returns.run_eq]
  rfl

/-- What the call returned, for a step that is one. -/
theorem returns_of_step {request : Request}
    (transition : g.step state (.call machine request) = some next) :
    ∃ stores reply page, state.admits machine request = true ∧
      (serve g.shmem (g.dram state machine) request).Returns state.mem stores (reply, page) ∧
      next = ⟨state.mem.apply stores, Function.update state.cur machine page,
        state.ledger.settle request reply, none⟩ := by
  unfold Setting.step at transition
  dsimp only at transition
  split at transition
  · obtain ⟨⟨mem, reply, page⟩, ran, rfl⟩ := Option.map_eq_some_iff.mp transition
    obtain ⟨returns, rfl⟩ := returns_of_run ran
    exact ⟨_, reply, page, ‹_›, returns, rfl⟩
  · exact absurd transition (by simp)

/-- A call that does not return is no step. -/
theorem step_of_stops {request : Request}
    (stops : (serve g.shmem (g.dram state machine) request state.mem).2 = none) :
    g.step state (.call machine request) = none := by
  unfold Setting.step
  dsimp only
  split
  · rw [Shm.run, stops]
    rfl
  · rfl

theorem Accounted.step_call (on : g.On s) (accounted : Accounted s state) {request : Request}
    (located : request = .recover → g.Located)
    (transition : g.step state (.call machine request) = some next)
    (careful : Careful g.shmem state.mem (state.cur machine) state.ledger.held request) :
    Accounted s next ∧ Keeps state (.call machine request) next := by
  obtain ⟨made, reply, page, admitted, returns, rfl⟩ := returns_of_step transition
  rcases State.admits_cases admitted with alive | heals
  · obtain ⟨after, kept⟩ := (accounted.call on alive located careful returns).accounted
    exact ⟨after, fun a inArea _ => kept a inArea⟩
  · obtain ⟨stores, _, _, returns', after, cut⟩ := accounted.heal on machine located heals
    obtain ⟨rfl, value⟩ := returns.unique returns'
    obtain ⟨rfl, rfl⟩ := Prod.mk.inj value
    rw [(state.ledger.settle_of_heals heals reply).1]
    refine ⟨after, fun a inArea _ => ?_⟩
    have whole := (cut made.length).1 a inArea
    rwa [List.take_length] at whole

theorem Accounted.step_crash (on : g.On s) (accounted : Accounted s state) {request : Request}
    (located : request = .recover → g.Located) {made : Nat}
    (transition : g.step state (.crash machine request made) = some next)
    (careful : Careful g.shmem state.mem (state.cur machine) state.ledger.held request)
    (mayCut : MayCut g.shmem.buddyAlloc (serve g.shmem (g.dram state machine) request) state.mem
      made) :
    Accounted s next ∧ Keeps state (.crash machine request made) next := by
  unfold Setting.step at transition
  dsimp only at transition
  split at transition
  swap
  · exact absurd transition (by simp)
  rename_i admitted
  obtain rfl := Option.some.inj transition
  have cases := State.admits_cases admitted
  rcases mayCut with rfl | ⟨returned, done⟩
  · exact ⟨accounted.die machine cases careful, fun _ _ _ => rfl⟩
  by_cases none : made = 0
  · subst none
    exact ⟨accounted.die machine cases careful, fun _ _ _ => rfl⟩
  · obtain ⟨⟨mem, reply, page⟩, ran⟩ := Option.isSome_iff_exists.mp returned
    obtain ⟨returns, _⟩ := returns_of_run ran
    have cutShort :
        g.cutShort state machine request made = state.ledger.interrupt request reply := by
      rw [Setting.cutShort, if_neg none, ran]
    rw [Shm.crashed, cutShort]
    have treeDone : s.TreeDone
        (((serve g.shmem (g.dram state machine) request).stores state.mem).drop made) := by
      rw [on.shmem] at done ⊢
      exact done
    rcases cases with alive | heals
    · obtain ⟨pages, headers, live, consistent, cut⟩ :=
        accounted.call on alive located careful returns
      obtain ⟨interrupted, less⟩ := consistent.interrupt
      obtain ⟨recovers, kept⟩ := cut _ less made treeDone
      have forgotten := interrupted.forget machine
      rw [Function.update_idem] at forgotten
      exact ⟨⟨_, pages, headers, live, forgotten, recovers, fun alive => absurd alive (by simp)⟩,
        fun a inArea _ => kept a inArea⟩
    · obtain ⟨stores, _, _, returns', _, cut⟩ := accounted.heal on machine located heals
      generalize (serve g.shmem (g.dram state machine) request).stores state.mem = made' at *
      obtain ⟨rfl, _⟩ := returns.unique returns'
      rw [(state.ledger.settle_of_heals heals reply).2.1]
      exact ⟨(cut made).2 treeDone, fun a inArea _ => (cut made).1 a inArea⟩

theorem Accounted.step_write (accounted : Accounted s state) {store : Store} {object : Object}
    (isHeld : object ∈ state.ledger.held)
    (within : store.Within object.offset (object.offset + object.length)) :
    Accounted s { state with mem := state.mem.store store } := by
  obtain ⟨m, pages, headers, live, consistent, recovers, now⟩ := accounted
  have agree := agreeOff_store isHeld within
  cases alive : state.dead with
  | none =>
      obtain rfl := now alive
      refine ⟨state.mem.store store, pages, headers, live, consistent.congr fun a isMeta => ?_,
        recovers.congr (agree _) (agree _), fun _ => rfl⟩
      exact agree _ a fun inArea => consistent.clear a inArea isMeta
  | some dead =>
      exact ⟨m, pages, headers, live, consistent, recovers.congr (agree _) (.refl _ _),
        fun none => absurd none (by simp)⟩

/-- Every step of an orderly run. -/
theorem Accounted.step (on : g.On s) (located : g.Located) (accounted : Accounted s state)
    {action : Action} (transition : g.step state action = some next)
    (allowed : g.Orderly state action next) : Accounted s next ∧ Keeps state action next := by
  cases action with
  | call machine request => exact accounted.step_call on (fun _ => located) transition allowed
  | crash machine request made =>
      exact accounted.step_crash on (fun _ => located) transition allowed.1 allowed.2
  | write store =>
      obtain ⟨object, isHeld, within⟩ := allowed
      obtain rfl := Option.some.inj transition
      exact ⟨accounted.step_write isHeld within, fun a _ untouched =>
        Mem.store_of_not_covers untouched⟩

end Steps

/-! ## Runs -/

section Runs

variable {g : Setting} {buddySize : Nat} {first : UInt16} {prior : Mem} {state : State}

/-- The mapping that has just been set up. -/
theorem Setting.On.initial {s : Mapping} (on : g.On s) (buddySize : Nat) (first : UInt16)
    (prior : Mem) :
    ∃ m, (g.machine buddySize first prior).initial =
        ⟨m, Function.update (fun _ => none) first (some firstRecords), .empty, none⟩ ∧
      Sound s m [firstRecords] [] [] ∧
      (∀ a, s.base ≤ a → a < s.base + 560 → m a = 0) ∧
      m.read 2 (availableSlotsAddr firstRecords) = numObjSlots := by
  obtain ⟨stores, returns, sound, blank, available⟩ := sound_of_init s buddySize prior
  refine ⟨prior.apply stores, ?_, sound, blank, available⟩
  rw [Setting.machine, on.shmem, returns.final_eq]

theorem accounted_initial {s : Mapping} (on : g.On s) (buddySize : Nat) (first : UInt16)
    (prior : Mem) : Accounted s (g.machine buddySize first prior).initial := by
  obtain ⟨m, initial, sound, blank, _⟩ := on.initial buddySize first prior
  have consistent : Consistent s m
      (Function.update (fun _ => none) first (some firstRecords)) .empty [firstRecords] [] [] := by
    refine ⟨sound, ⟨.nil, by simp [Ledger.empty, Directory.empty]⟩,
      update_current (fun _ _ none => absurd none (by simp)) (fun p isFirst => ?_) first, .refl _,
      fun some => absurd rfl some⟩
    exact List.mem_singleton.mpr (Option.some.inj isFirst).symm
  rw [initial]
  refine ⟨_, _, _, _, consistent, ?_, fun _ => rfl⟩
  refine recovers_of_no_commit consistent.clear fun i bound => ?_
  have inside : entryAddr s.shmem.redolog (i + 1) ≤ entryAddr s.shmem.redolog redologEntries :=
    entryAddr_le bound
  rw [entryAddr_succ, s.logEnd_eq] at inside
  unfold sizeofLogEntry at inside
  have zero : m.read 4 (entryAddr s.shmem.redolog i) =
      Mem.read (fun _ => 0) 4 (entryAddr s.shmem.redolog i) := Mem.read_congr fun a low high =>
    blank a ((Nat.le_add_right s.base _).trans low) (by omega)
  rw [zero]
  simp [Mem.read, EntryType.code]

theorem reachable_step {guard : Guard State Action}
    (reached : (g.machine buddySize first prior).Reachable guard state) {action : Action}
    {next : State} (transition : g.step state action = some next)
    (allowed : guard state action next) :
    (g.machine buddySize first prior).Reachable guard next := .step reached transition allowed

/-- Every state of an orderly run is accounted for. -/
theorem accounted_of_reachable
    (accepted : metaShmemOf g.memLength = some (g.shmem, buddySize)) (bound : g.memLength ≤ 2 ^ 62)
    (located : Layout.recoverMetaAddress g.memLength = some g.shmem.base)
    (reached : (g.machine buddySize first prior).Reachable g.Orderly state) :
    ∃ s, g.On s ∧ Accounted s state := by
  obtain ⟨s, shmem, memLength⟩ := exists_mapping accepted bound
  have on : g.On s := ⟨shmem.symm, memLength.symm⟩
  refine ⟨s, on, reached.invariant (accounted_initial on buddySize first prior) ?_⟩
  exact fun accounted transition allowed => (accounted.step on located transition allowed).1

/-- The tree has a free block for the request. -/
def Setting.hasBlock (g : Setting) (m : Mem) (length : Nat) : Bool :=
  buddyTreeValid g.shmem.buddyAlloc.tree (buddyMallocFindPos g.shmem.buddyAlloc m length)

/-- The block that is found for the request. -/
def Setting.block (g : Setting) (m : Mem) (length : Nat) : Nat :=
  addressForPosition g.shmem.buddyAlloc (buddyMallocFindPos g.shmem.buddyAlloc m length)

theorem Setting.On.hasBlock_iff {s : Mapping} (on : g.On s) (m : Mem) (length : Nat) :
    g.hasBlock m length = true ↔ s.HasBlock m length := by
  rw [Setting.hasBlock, on.shmem]
  rfl

/-- There is a slot for a header: in the page, or in a new one. -/
def Setting.HasSlot (g : Setting) (m : Mem) (page : Nat) : Prop :=
  0 < m.read 2 (availableSlotsAddr page) ∨ g.hasBlock m sizeofRecords = true

section Allocate

variable {machine : UInt16} {length : Nat} {name : ProgId}

theorem step_allocate (alive : state.dead = none) {stores : List Store} {result : Except Int Nat}
    {page : Option Nat}
    (returns : (atomicAllocateMemoryLockheld g.shmem (g.dram state machine) length
      name.toCString).Returns state.mem stores (result, page)) :
    g.step state (.call machine (.allocate length name)) =
      some ⟨state.mem.apply stores, Function.update state.cur machine page,
        state.ledger.settle (.allocate length name) (.allocated result), none⟩ := by
  have admitted : state.admits machine (.allocate length name) = true :=
    State.admits_of_alive alive rfl machine
  have served : (serve g.shmem (g.dram state machine) (.allocate length name)).Returns state.mem
      stores _ := Shm.bind_pure_apply returns fun result => (Reply.allocated result.1, result.2)
  exact step_of_returns admitted served

theorem step_allocate_none
    (stops : (atomicAllocateMemoryLockheld g.shmem (g.dram state machine) length name.toCString
      state.mem).2 = none) :
    g.step state (.call machine (.allocate length name)) = none :=
  step_of_stops (by rw [serve, Shm.bind_of_none (Prod.ext rfl stops)])

end Allocate

end Runs

end Lupin.Alloc
