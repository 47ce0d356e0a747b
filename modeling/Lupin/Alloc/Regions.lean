import Lupin.Alloc.Filling

/-!
# Regions and recovery in runs of the system

What clients and machines can rely on, in every state of an orderly run: the regions that are held
are apart and keep their bytes, a call that was cut short happens or does not, and `recover_meta`
completes.
-/

namespace Lupin.Alloc

open Lupin.Memory Lupin.HeapIndex Lupin.LevelTree Lupin.Buddy Lupin.Log Lupin.LinkedList
  Lupin.Transition

section Runs

variable {g : Setting} {buddySize : Nat} {first : UInt16} {prior : Mem} {state : State}

/-- In every state of an orderly run, whatever machines died on the way: regions that are held at
the same time have no byte in common, and all of them lie between the reserved areas and the
metadata. -/
theorem held_regions_apart
    (accepted : metaShmemOf g.memLength = some (g.shmem, buddySize)) (bound : g.memLength ≤ 2 ^ 62)
    (located : Layout.recoverMetaAddress g.memLength = some g.shmem.base)
    (reached : (g.machine buddySize first prior).Reachable g.Orderly state) :
    (state.ledger.held.Pairwise fun x y => Apart x.offset x.length y.offset y.length) ∧
      ∀ object ∈ state.ledger.held, Layout.totalReserved ≤ object.offset ∧
        object.offset + object.length ≤ g.shmem.base := by
  obtain ⟨s, on, _, _, _, _, consistent, _⟩ := accounted_of_reachable accepted bound located reached
  have bounds := fun object (isHeld : object ∈ state.ledger.held) =>
    consistent.sound.block_bounds (consistent.isLive isHeld)
  unfold Object.block at bounds
  dsimp only at bounds
  refine ⟨?_, fun object isHeld => ?_⟩
  · have blocks := List.pairwise_map.mp (List.pairwise_append.mp consistent.pairwise).1
    refine blocks.imp_of_mem fun {x y} xHeld yHeld apart => ?_
    have := (bounds x xHeld).2.1
    have := (bounds y yHeld).2.1
    unfold Object.block Apart at apart
    unfold Apart
    dsimp only at apart
    omega
  · obtain ⟨low, large, high⟩ := bounds object isHeld
    have base : g.shmem.base = s.base := congrArg MetaShmem.base on.shmem
    exact ⟨low, by omega⟩

theorem held_regions_apart_two : ∃ state x y,
    (smallSetting.machine 768 1 fun _ => 0).Reachable smallSetting.Orderly state ∧
      state.ledger.held = [x, y] ∧ x.length = 4096 ∧ y.length = 4096 ∧
      Apart x.offset 4096 y.offset 4096 ∧ 98304 ≤ x.offset ∧ y.offset + 4096 ≤ 261376 := by
  obtain ⟨_, state, _, reached, filled, named⟩ :=
    smallSetting_filled [sampleName, secondName] (by decide)
  obtain ⟨x, rest, held, _, others⟩ := List.map_eq_cons_iff.mp named
  obtain ⟨y, rfl, _⟩ := List.map_eq_singleton_iff.mp others
  have lengths := filled.lengths
  obtain ⟨apart, bounds⟩ := held_regions_apart smallSetting_accepted (by decide)
    smallSetting_located reached
  rw [held] at lengths apart bounds
  have xLength : x.length = 4096 := lengths x (by simp)
  have yLength : y.length = 4096 := lengths y (by simp)
  have two := (List.pairwise_cons.mp apart).1 y (by simp)
  rw [xLength, yLength] at two
  have yBounds := (bounds y (by simp)).2
  rw [yLength] at yBounds
  exact ⟨state, x, y, reached, held, xLength, yLength, two, (bounds x (by simp)).1, yBounds⟩

/-- No step of an orderly run, be it a call, the death of a machine or a recovery, changes a byte of
a region that is held afterwards. Only the clients' own writes do. -/
theorem held_bytes_kept
    (accepted : metaShmemOf g.memLength = some (g.shmem, buddySize)) (bound : g.memLength ≤ 2 ^ 62)
    (located : Layout.recoverMetaAddress g.memLength = some g.shmem.base)
    (reached : (g.machine buddySize first prior).Reachable g.Orderly state) {action : Action}
    {next : State} (transition : g.step state action = some next)
    (allowed : g.Orderly state action next) {object : Object} (isHeld : object ∈ next.ledger.held)
    {a : Nat} (low : object.offset ≤ a) (high : a < object.offset + object.length)
    (untouched : ¬ action.Writes a) : next.mem a = state.mem a := by
  obtain ⟨s, on, accounted⟩ := accounted_of_reachable accepted bound located reached
  exact (accounted.step on located transition allowed).2 a ⟨object, isHeld, low, high⟩ untouched

/-- Another allocation while a region is held. -/
theorem held_bytes_kept_second : ∃ state next,
    smallSetting.step state (.call 1 (.allocate 4096 secondName)) = some next ∧
      ∃ object ∈ state.ledger.held, object ∈ next.ledger.held ∧
        next.mem object.offset = state.mem object.offset := by
  obtain ⟨_, state, on, reached, filled, named⟩ := smallSetting_filled [sampleName] (by decide)
  obtain ⟨object, held, _⟩ := List.map_eq_singleton_iff.mp named
  have isHeld : object ∈ state.ledger.held := held ▸ List.mem_singleton_self _
  obtain ⟨next, transition, allowed, _, grown⟩ := smallSetting_next on filled (by
    rw [held, List.length_singleton]
    decide) secondName
  have still : object ∈ next.ledger.held := grown ▸ List.mem_cons_of_mem _ isHeld
  refine ⟨state, next, transition, object, isHeld, still, ?_⟩
  exact held_bytes_kept smallSetting_accepted (by decide) smallSetting_located reached transition
    allowed still le_rfl
    (Nat.lt_add_of_pos_right (by rw [filled.lengths object isHeld]; decide)) id

/-- What an allocation comes to, in every state of an orderly run with the lock free. Without a
block it is refused and changes nothing. With one it never returns on a machine that has no record
page, or whose page is full while there is no block for another, and otherwise it hands the block
out. -/
theorem allocation_outcome
    (accepted : metaShmemOf g.memLength = some (g.shmem, buddySize)) (bound : g.memLength ≤ 2 ^ 62)
    (located : Layout.recoverMetaAddress g.memLength = some g.shmem.base)
    (reached : (g.machine buddySize first prior).Reachable g.Orderly state)
    (alive : state.dead = none) (machine : UInt16) (length : Nat) (name : ProgId) :
    (g.hasBlock state.mem length = false →
      g.step state (.call machine (.allocate length name)) = some state) ∧
    (g.hasBlock state.mem length = true →
      (∀ p, state.cur machine = some p → ¬ g.HasSlot state.mem p) →
      g.step state (.call machine (.allocate length name)) = none) ∧
    (g.hasBlock state.mem length = true →
      ∀ p, state.cur machine = some p → g.HasSlot state.mem p →
      ∃ next, g.step state (.call machine (.allocate length name)) = some next ∧
        next.ledger.held = ⟨g.block state.mem length, length, name⟩ :: state.ledger.held) := by
  obtain ⟨s, on, _, pages, headers, live, consistent, _, now⟩ :=
    accounted_of_reachable accepted bound located reached
  obtain rfl := now alive
  have sound := consistent.sound
  have onMachine : ∀ p, state.cur machine = some p → OnMachine s (g.dram state machine) p :=
    fun p isCur => ⟨on.memLength, machine.toNat_lt, isCur⟩
  refine ⟨fun noBlock => ?_, fun hasBlock unready => step_allocate_none ?_,
    fun hasBlock p isCur isReady => ?_⟩
  · have refused := allocate_refused (s := s)
      (fun hasBlock => Bool.eq_false_iff.mp noBlock ((on.hasBlock_iff _ _).mpr hasBlock))
      (g.dram state machine) name.toCString
    rw [← on.shmem] at refused
    rw [step_allocate alive refused]
    change some (State.mk state.mem (Function.update state.cur machine (state.cur machine))
      state.ledger none) = some state
    rw [Function.update_eq_self, ← alive]
  · rw [on.hasBlock_iff] at hasBlock
    rw [on.shmem]
    cases isCur : state.cur machine with
    | none => exact sound.allocate_without_page on.memLength hasBlock isCur _
    | some p =>
        obtain ⟨full, noPage⟩ := not_or.mp (unready p isCur)
        rw [on.hasBlock_iff] at noPage
        exact sound.allocate_full (onMachine p isCur) (consistent.current machine p isCur) hasBlock
          (by omega) noPage _
  · rw [on.hasBlock_iff] at hasBlock
    have page : state.mem.read 2 (availableSlotsAddr p) = 0 → s.HasBlock state.mem sizeofRecords :=
      fun full => (on.hasBlock_iff _ _).mp (isReady.resolve_left (by omega))
    obtain ⟨stores, returns⟩ := sound.allocate_returns (onMachine p isCur)
      (consistent.current machine p isCur) hasBlock page name
    rw [← on.shmem] at returns
    refine ⟨_, step_allocate alive returns, ?_⟩
    rw [Setting.block, on.shmem]
    rfl

/-- The second allocation. -/
theorem allocation_outcome_second : ∃ state next,
    (smallSetting.machine 768 1 fun _ => 0).Reachable smallSetting.Orderly state ∧
      state.ledger.held.length = 1 ∧
      smallSetting.step state (.call 1 (.allocate 4096 secondName)) = some next ∧
      next.ledger.held.length = 2 := by
  obtain ⟨s, state, on, reached, filled, named⟩ := smallSetting_filled [sampleName] (by decide)
  obtain ⟨object, held, _⟩ := List.map_eq_singleton_iff.mp named
  have arena : smallSetting.shmem.buddyAlloc = s.arena.toBuddyAlloc := by
    rw [on.shmem, s.buddyAlloc_eq]
  have hasBlock := filled.hasBlock (by rw [← arena]; decide) (by
    rw [held, ← arena, List.length_singleton]
    decide)
  have slots := filled.slots
  rw [held] at slots
  obtain ⟨next, transition, grown⟩ := (allocation_outcome smallSetting_accepted (by decide)
    smallSetting_located reached filled.alive 1 4096 secondName).2.2
    ((on.hasBlock_iff _ _).mpr hasBlock) _ filled.isCur (.inl (by
      have : numObjSlots = 340 := rfl
      simp at slots
      omega))
  exact ⟨state, next, reached, by rw [held]; rfl, transition, by rw [grown, held]; rfl⟩

end Runs

/-! ## Recovery -/

/-- Machines that take the lock over and die then, one after the other. -/
inductive Setting.Attempts (g : Setting) : State → State → Prop where
  | none (state : State) : Attempts g state state
  | another {start state next : State} {machine : UInt16} {request : Request} {made : Nat}
      (prior : Attempts g start state) (heals : request.heals = true)
      (transition : g.step state (.crash machine request made) = some next)
      (allowed : g.Orderly state (.crash machine request made) next) : Attempts g start next

/-- Recovery leads to this memory. -/
structure Awaits (s : Mapping) (target : Mem) (state : State) : Prop where
  recovers : ∃ pages headers live,
    Consistent s target state.cur state.ledger pages headers live ∧
      Recovers s pages (heldArea state.ledger.held) state.mem target
  same : ∀ a, heldArea state.ledger.held a → state.mem a = target a

section Recovery

variable {s : Mapping} {g : Setting} {machine : UInt16} {request : Request} {target : Mem}
  {state next : State}

/-- The lock is taken over by a machine that dies: this changes nothing about where the next one
leads. -/
theorem Awaits.attempt (on : g.On s) (located : g.Located) (awaits : Awaits s target state)
    (heals : request.heals = true) {made : Nat}
    (transition : g.step state (.crash machine request made) = some next)
    (allowed : g.Orderly state (.crash machine request made) next) : Awaits s target next := by
  have mayCut := allowed.2
  obtain ⟨pages, headers, live, consistent, recovers⟩ := awaits.recovers
  have forgotten := consistent.forget machine
  unfold Setting.step at transition
  dsimp only at transition
  split at transition
  swap
  · exact absurd transition (by simp)
  obtain rfl := Option.some.inj transition
  have unchanged : g.cutShort state machine request made = state.ledger := by
    unfold Setting.cutShort
    split
    · exact (state.ledger.settle_of_heals heals (.freed 0)).2.2
    · split
      · exact (state.ledger.settle_of_heals heals _).2.1
      · rfl
  rw [unchanged]
  rcases mayCut with rfl | ⟨_, done⟩
  · exact ⟨⟨pages, headers, live, forgotten, recovers⟩, awaits.same⟩
  · obtain ⟨stores, _, _, returns, _, healed⟩ := consistent.heal recovers (on.joined state machine)
      (fun _ => on.located located state machine) heals
    rw [on.shmem, returns.stores_eq] at done
    rw [Shm.crashed, on.shmem, returns.stores_eq]
    exact ⟨⟨pages, headers, live, forgotten, healed.cut made done⟩, fun a inArea =>
      (healed.kept made a inArea).trans (awaits.same a inArea)⟩

theorem Awaits.attempts (on : g.On s) (located : g.Located) (awaits : Awaits s target state)
    (attempts : g.Attempts state next) : Awaits s target next := by
  induction attempts with
  | none => exact awaits
  | another _ heals transition allowed inductionHypothesis =>
      exact inductionHypothesis.attempt on located heals transition allowed

/-- A machine that takes the lock over and does not die leads to the memory that is awaited. -/
theorem Awaits.rescue (on : g.On s) (located : g.Located) (awaits : Awaits s target state)
    (heals : request.heals = true) (admitted : state.admits machine request = true) :
    ∃ healed, g.step state (.call machine request) = some healed ∧ healed.mem = target := by
  obtain ⟨pages, headers, live, consistent, recovers⟩ := awaits.recovers
  obtain ⟨stores, _, _, returns, _, healed⟩ := consistent.heal recovers (on.joined state machine)
    (fun _ => on.located located state machine) heals
  rw [← on.shmem] at returns
  refine ⟨_, step_of_returns admitted returns, funext fun a => ?_⟩
  by_cases inArea : heldArea state.ledger.held a
  · have kept := healed.kept stores.length a inArea
    rw [List.take_length] at kept
    exact kept.trans (awaits.same a inArea)
  · exact healed.agree a inArea

/-- A call that dies behind its stores to the tree. -/
theorem Accounted.awaits (on : g.On s) (located : g.Located) (accounted : Accounted s state)
    (alive : state.dead = none) {made : Nat} {broken : State}
    (careful : Careful g.shmem state.mem (state.cur machine) state.ledger.held request)
    (completed : g.step state (.call machine request) = some next)
    (crashed : g.step state (.crash machine request made) = some broken)
    (mayCut : MayCut g.shmem.buddyAlloc (serve g.shmem (g.dram state machine) request) state.mem
      made) :
    Awaits s next.mem broken ∨ made = 0 ∧ Awaits s state.mem broken := by
  unfold Setting.step at completed crashed
  dsimp only at completed crashed
  split at crashed
  swap
  · exact absurd crashed (by simp)
  rename_i admitted
  rw [if_pos admitted] at completed
  obtain ⟨⟨mem, reply, page⟩, ran, rfl⟩ := Option.map_eq_some_iff.mp completed
  obtain rfl := Option.some.inj crashed
  obtain ⟨returns, rfl⟩ := returns_of_run ran
  by_cases none : made = 0
  · subst none
    obtain ⟨m, pages, headers, live, consistent, recovers, now⟩ := accounted
    obtain rfl := now alive
    obtain ⟨abandoned, less⟩ := consistent.abandon careful
    exact .inr ⟨rfl, ⟨pages, headers, live, abandoned.forget machine,
      recovers.shrink (fun a => heldArea_mono less) fun _ _ => rfl⟩, fun _ _ => rfl⟩
  · obtain ⟨pages, headers, live, consistent, cut⟩ :=
      accounted.call on alive (fun _ => located) careful returns
    obtain ⟨interrupted, less⟩ := consistent.interrupt
    obtain ⟨recovers, kept⟩ := cut _ less made (by
      have done := (mayCut.resolve_left none).2
      rw [on.shmem] at done ⊢
      exact done)
    obtain ⟨_, whole⟩ := cut _ less
      ((serve g.shmem (g.dram state machine) request).stores state.mem).length (by
        rw [List.drop_length]
        exact fun t none => absurd none List.not_mem_nil)
    rw [List.take_length] at whole
    have forgotten := interrupted.forget machine
    rw [Function.update_idem] at forgotten
    have cutShort : g.cutShort state machine request made =
        state.ledger.interrupt request reply := by
      rw [Setting.cutShort, if_neg none, ran]
    rw [cutShort]
    exact .inl ⟨⟨pages, headers, live, forgotten, recovers⟩,
      fun a inArea => (kept a inArea).trans (whole a inArea).symm⟩

end Recovery

section RecoveryRuns

variable {g : Setting} {buddySize : Nat} {first machine : UInt16} {prior : Mem} {state : State}

/-- In orderly runs a call that is cut short by the death of its machine happens or does not.
However many machines that took the lock over died as well: once one of them completes
`recover_meta` or the help of a survivor, memory is as after the whole call, or as before it if no
store had been made. -/
theorem interrupted_call_all_or_nothing
    (accepted : metaShmemOf g.memLength = some (g.shmem, buddySize)) (bound : g.memLength ≤ 2 ^ 62)
    (located : Layout.recoverMetaAddress g.memLength = some g.shmem.base)
    (reached : (g.machine buddySize first prior).Reachable g.Orderly state)
    (alive : state.dead = none) {request : Request} {made : Nat} {next broken tired : State}
    (completed : g.step state (.call machine request) = some next)
    (crashed : g.step state (.crash machine request made) = some broken)
    (allowed : g.Orderly state (.crash machine request made) broken)
    (attempts : g.Attempts broken tired) {rescuer : UInt16} {rescue : Request}
    (heals : rescue.heals = true) (admitted : tired.admits rescuer rescue = true) :
    ∃ healed, g.step tired (.call rescuer rescue) = some healed ∧
      (healed.mem = next.mem ∨ made = 0 ∧ healed.mem = state.mem) := by
  obtain ⟨s, on, accounted⟩ := accounted_of_reachable accepted bound located reached
  rcases accounted.awaits on located alive allowed.1 completed crashed allowed.2 with awaits |
    ⟨isZero, awaits⟩
  · obtain ⟨healed, rescued, same⟩ :=
      (awaits.attempts on located attempts).rescue on located heals admitted
    exact ⟨healed, rescued, .inl same⟩
  · obtain ⟨healed, rescued, same⟩ :=
      (awaits.attempts on located attempts).rescue on located heals admitted
    exact ⟨healed, rescued, .inr ⟨isZero, same⟩⟩

/-- The machine dies after the last store of its second allocation, a second machine dies in its
help, and a third one helps. -/
theorem interrupted_call_all_or_nothing_helped : ∃ state next tired healed,
    smallSetting.step state (.call 1 (.allocate 4096 secondName)) = some next ∧
      state.ledger.held.length = 1 ∧ tired.dead = some 2 ∧
      smallSetting.step tired (.call 3 .help) = some healed ∧ healed.mem = next.mem := by
  obtain ⟨_, state, on, reached, filled, named⟩ := smallSetting_filled [sampleName] (by decide)
  obtain ⟨object, held, _⟩ := List.map_eq_singleton_iff.mp named
  obtain ⟨next, transition, allowed, _⟩ := smallSetting_next on filled (by
    rw [held, List.length_singleton]
    decide) secondName
  let call := serve smallSetting.shmem (smallSetting.dram state 1) (.allocate 4096 secondName)
  have admitted : state.admits 1 (.allocate 4096 secondName) = true :=
    State.admits_of_alive filled.alive rfl 1
  have returned : (call.run state.mem).isSome = true := by
    unfold Setting.step at transition
    dsimp only at transition
    rw [if_pos admitted] at transition
    obtain ⟨_, ran, _⟩ := Option.map_eq_some_iff.mp transition
    rw [ran]
    rfl
  let broken : State := ⟨call.crashed state.mem ((call.stores state.mem).length + 1),
    Function.update state.cur 1 none, smallSetting.cutShort state 1 (.allocate 4096 secondName)
      ((call.stores state.mem).length + 1), some 1⟩
  have crashed : smallSetting.step state (.crash 1 (.allocate 4096 secondName)
      ((call.stores state.mem).length + 1)) = some broken := if_pos admitted
  let tired : State := ⟨broken.mem, Function.update broken.cur 2 none, broken.ledger, some 2⟩
  have again : smallSetting.step broken (.crash 2 .help 0) = some tired := rfl
  obtain ⟨healed, rescued, same⟩ := @interrupted_call_all_or_nothing _ _ _ _ _ _
    smallSetting_accepted (by decide) smallSetting_located reached filled.alive _ _ _ _ _ transition
    crashed ⟨allowed, .inr ⟨returned, by
      rw [List.drop_eq_nil_of_le (Nat.le_succ _)]
      exact fun t none => absurd none List.not_mem_nil⟩⟩
    (.another (.none broken) rfl again ⟨trivial, .inl rfl⟩) 3 .help rfl rfl
  exact ⟨state, next, tired, healed, transition, by rw [held]; rfl, rfl, rescued,
    same.resolve_right fun zero => absurd zero.1 (Nat.succ_ne_zero _)⟩

/-- A machine that joins an orderly run or comes back completes `recover_meta`. It changes nothing
if no machine had died, and the page it takes is the first of the list with a free slot. -/
theorem recover_meta_completes
    (accepted : metaShmemOf g.memLength = some (g.shmem, buddySize)) (bound : g.memLength ≤ 2 ^ 62)
    (located : Layout.recoverMetaAddress g.memLength = some g.shmem.base)
    (reached : (g.machine buddySize first prior).Reachable g.Orderly state)
    (admitted : state.admits machine .recover = true) :
    ∃ mem page, (recoverMeta g.shmem (g.dram state machine)).run state.mem = some (mem, 0, page) ∧
      (state.dead = none → mem = state.mem) ∧
      walkQueue mem (hasFreeSlot mem) g.shmem.objAllocs = some page ∧
      g.step state (.call machine .recover) =
        some ⟨mem, Function.update state.cur machine page, state.ledger, none⟩ := by
  obtain ⟨s, on, m, pages, headers, live, consistent, recovers, now⟩ :=
    accounted_of_reachable accepted bound located reached
  obtain ⟨stores, recovered, healed⟩ :=
    consistent.recover recovers (on.located located state machine)
  rw [← on.shmem] at recovered
  refine ⟨_, _, recovered.run_eq, fun alive => ?_, ?_,
    step_of_returns admitted (serve_recover recovered)⟩
  · obtain rfl := now alive
    exact healed.unchanged
  · rw [on.shmem]
    exact healed.consistent.sound.shape.pages_walkQueue_eq _

/-- A second machine joins while two regions are held. -/
theorem recover_meta_completes_join : ∃ state page,
    (smallSetting.machine 768 1 fun _ => 0).Reachable smallSetting.Orderly state ∧
      state.ledger.held.length = 2 ∧ smallSetting.step state (.call 2 .recover) =
        some ⟨state.mem, Function.update state.cur 2 page, state.ledger, none⟩ := by
  obtain ⟨_, state, _, reached, filled, named⟩ :=
    smallSetting_filled [sampleName, secondName] (by decide)
  have lengths := congrArg List.length named
  rw [List.length_map] at lengths
  obtain ⟨mem, page, _, same, _, stepped⟩ := recover_meta_completes smallSetting_accepted
    (by decide) smallSetting_located reached (State.admits_of_alive filled.alive rfl 2)
  exact ⟨state, page, reached, lengths, same filled.alive ▸ stepped⟩

end RecoveryRuns

end Lupin.Alloc
