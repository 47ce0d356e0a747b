import Lupin.Alloc.Capacity

/-!
# Names in runs of the system

The directory is what `find_allocation` and `atomic_free_memory` go by. In tidy runs every region
that is held is found by its name, on every machine, after any deaths and recoveries. Runs that
free the newest of several objects are not tidy: the directory is stale from then on.
-/

namespace Lupin.Alloc

open Lupin.Memory Lupin.HeapIndex Lupin.LevelTree Lupin.Buddy Lupin.Log Lupin.LinkedList
  Lupin.Transition

section Find

variable {s : Mapping} {m : Mem} {cur : UInt16 → Option Nat} {ledger : Ledger}
  {pages headers : List Nat} {live : List (Nat × Nat)} {name : ProgId}

/-- The search finds what the directory has. -/
theorem Consistent.search (consistent : Consistent s m cur ledger pages headers live)
    (name : ProgId) :
    (ledger.dir.lookup name = none ∧ (findObjHeader s.shmem name.toCString).Returns m [] none) ∨
      ∃ object h, ledger.dir.lookup name = some object ∧ object.name = name ∧ ObjectAt m h object ∧
        (findObjHeader s.shmem name.toCString).Returns m [] (some h) := by
  have searched := consistent.sound.search name.toCString
  rcases find_split consistent.directory.entries name with ⟨missing, others⟩ |
    ⟨_, h, _, _, object, _, _, split, _, here, _, others, named, found⟩
  · rw [missing] at searched
    exact .inl ⟨Directory.lookup_none others, searched⟩
  · rw [found] at searched
    exact .inr ⟨object, h, Directory.lookup_some split others named, named, here, searched⟩

theorem Consistent.search_missing (consistent : Consistent s m cur ledger pages headers live)
    (missing : ledger.dir.lookup name = none) :
    (findObjHeader s.shmem name.toCString).Returns m [] none := by
  rcases consistent.search name with ⟨_, notFound⟩ | ⟨_, _, isListed, _⟩
  · exact notFound
  · exact absurd (missing.symm.trans isListed) (by simp)

/-- `find_allocation` of a name that is in the directory. -/
theorem Consistent.find_existing (consistent : Consistent s m cur ledger pages headers live)
    {object : Object} (isListed : ledger.dir.lookup name = some object) (d : MetaDram)
    (offset length : Nat) :
    (findAllocation s.shmem d ⟨offset, length, name.toCString⟩).Returns m []
      ⟨⟨object.desc, true⟩, none, d.curObjRecs⟩ := by
  rcases consistent.search name with ⟨missing, _⟩ | ⟨object', h, isFound, named, here, searched⟩
  · exact absurd (isListed.symm.trans missing) (by simp)
  · obtain rfl := Option.some.inj (isListed.symm.trans isFound)
    subst named
    have known := @findAllocation_existing _ _ ⟨offset, length, object.name.toCString⟩ h searched d
    rw [here.offset, here.length] at known
    exact known

end Find

/-! ## Free by name -/

/-- The oldest of several objects has this name. -/
def Directory.Blocked (dir : Directory) (name : ProgId) : Prop :=
  ∃ oldest second others, dir.entries = oldest :: second :: others ∧ oldest.name = name

section Free

variable {s : Mapping} {m : Mem} {cur : UInt16 → Option Nat} {ledger : Ledger}
  {pages headers : List Nat} {live : List (Nat × Nat)} {region : Object}

/-- The newer of two objects is not the oldest. -/
theorem Directory.not_blocked {dir : Directory} {older newer : Object}
    (entries : dir.entries = [older] ++ newer :: [])
    (others : ∀ o ∈ [older], o.name ≠ newer.name) : ¬ dir.Blocked newer.name := by
  rintro ⟨_, _, _, several, isOldest⟩
  rw [entries] at several
  obtain ⟨rfl, _⟩ := List.cons.inj several
  exact others older (List.mem_singleton_self _) isOldest

/-- A block whose place is apart from all that are taken can be found. -/
theorem Sound.hasBlock_of_apart (sound : Sound s m pages headers live) {node : Nat}
    (at_ : BlockAt s.arena node region.block)
    (inside : region.offset + blockSize s.arena.toBuddyAlloc region.length ≤
      s.arena.main + s.arena.memorySize)
    (apart : ∀ block ∈ live, Apart block.1 (blockSize s.arena.toBuddyAlloc block.2) region.offset
      (blockSize s.arena.toBuddyAlloc region.length)) : s.HasBlock m region.length := by
  obtain ⟨_, _, atEnd, invariant⟩ := sound.tree
  have above : s.arena.main ≤ region.offset := at_.aligned.1
  by_contra noBlock
  obtain ⟨block, isLive, meet⟩ := invariant.complete atEnd (Bool.eq_false_iff.mpr noBlock)
    ((le_max_left _ _).trans at_.large) at_.multiple (by
      change region.offset - s.arena.main + _ ≤ _
      omega)
  refine meet ?_
  rw [show s.arena.main + (region.block.1 - s.arena.main) = region.offset by
    dsimp only [Object.block]
    omega]
  exact apart block isLive

/-- The memory of a region whose header is found is free again. -/
theorem Consistent.frees (consistent : Consistent s m cur ledger pages headers live) (d : MetaDram)
    (isHeld : region ∈ ledger.held) {object : Object}
    (isListed : ledger.dir.lookup region.name = some object)
    (removable : ¬ ledger.dir.Blocked region.name) :
    ∃ stores headers' live', (atomicFreeMemory s.shmem d region.desc).Returns m stores
        (0, d.curObjRecs) ∧
      Consistent s (m.apply stores) cur (ledger.release region) pages headers' live' ∧
      s.HasBlock (m.apply stores) region.length ∧
      ∃ p ∈ pages, 0 < (m.apply stores).read 2 (availableSlotsAddr p) := by
  obtain ⟨named, front, back, split, others⟩ := Directory.split_of_lookup isListed
  rcases find_split consistent.directory.entries region.name with ⟨_, missing⟩ |
    ⟨hFront, h, hBack, front', object', back', hSplit, split', before, _, after, _, named', found⟩
  · exact absurd named (missing object (by rw [split]; simp))
  have canGo : headers = [h] ∨ headers.head? ≠ some h := by
    rw [hSplit]
    cases before with
    | nil =>
        cases after with
        | nil => exact .inl rfl
        | cons => exact absurd ⟨_, _, _, split', named'⟩ removable
    | cons =>
        have distinct := consistent.sound.shape.headerList.nodup
        rw [hSplit] at distinct
        refine .inr fun isHead => ?_
        obtain rfl := Option.some.inj isHead
        exact absurd (List.mem_append_right _ List.mem_cons_self) (List.nodup_cons.mp distinct).1
  obtain ⟨stores, returns, now, slot⟩ := consistent.freed d isHeld found canGo
  refine ⟨stores, _, _, returns, now, ?_, slot⟩
  obtain ⟨_, _, atEnd, invariant⟩ := consistent.sound.tree
  have isLive := consistent.isLive isHeld
  refine now.sound.hasBlock_of_apart (invariant.live _ isLive).1 (invariant.inside atEnd isLive)
    fun block stillLive => ?_
  have pairwise := (List.perm_cons_erase isLive).pairwise_iff (fun apart => Or.symm apart) |>.mp
    invariant.pairwise
  exact Or.symm ((List.pairwise_cons.mp pairwise).1 block stillLive)

/-- The header of the oldest of several objects is not taken off the list. -/
theorem Consistent.free_blocked (consistent : Consistent s m cur ledger pages headers live)
    (d : MetaDram) (isHeld : region ∈ ledger.held) (blocked : ledger.dir.Blocked region.name) :
    (atomicFreeMemory s.shmem d region.desc m).2 = none := by
  obtain ⟨oldest, second, others, entries, named⟩ := blocked
  have related := consistent.directory.entries
  have sound := consistent.sound
  rw [entries] at related
  cases related with
  | cons here related =>
      cases related with
      | cons _ _ =>
          refine sound.free_first d ?_ (consistent.isLive isHeld)
          exact here.name.namedAt_iff.mpr (by rw [named]; rfl)

end Free

/-! ## What a step does to the ledger -/

/-- The request of an action. -/
def Action.request : Action → Option Request
  | .call _ request => some request
  | .crash _ request _ => some request
  | .write _ => none

/-- A request that is served. `find_allocation` allocates only names it does not find. -/
inductive Ledger.Serves (ledger : Ledger) : Option Request → Ledger → Prop where
  | same (request : Option Request) : Serves ledger request ledger
  | allocate (obj length : Nat) (name : ProgId) :
      Serves ledger (some (.allocate length name)) (ledger.grant ⟨obj, length, name⟩)
  | find (obj offset length : Nat) {name : ProgId} (missing : ledger.dir.lookup name = none) :
      Serves ledger (some (.find offset length name)) (ledger.grant ⟨obj, length, name⟩)
  | free {region : Object} (isHeld : region ∈ ledger.held) :
      Serves ledger (some (.free region)) (ledger.release region)

section Steps

variable {s : Mapping} {g : Setting} {state next : State} {m : Mem} {cur : UInt16 → Option Nat}
  {ledger : Ledger} {pages headers : List Nat} {live : List (Nat × Nat)} {machine : UInt16}

/-- `find_allocation` hands a region out only if it has not found one. -/
theorem Consistent.found_missing (consistent : Consistent s m cur ledger pages headers live)
    {d : MetaDram} {offset length : Nat} {name : ProgId} {stores : List Store}
    {findAlloc : VcxlFindAlloc} {obj : Nat} {page : Option Nat}
    (returns : (Alloc.serve s.shmem d (.find offset length name)).Returns m stores
      (.found findAlloc (some obj), page)) : ledger.dir.lookup name = none := by
  cases isListed : ledger.dir.lookup name with
  | none => rfl
  | some object =>
      obtain ⟨result, finds, same⟩ := Shm.Returns.of_bind_pure returns
      obtain ⟨_, rfl⟩ := finds.unique (consistent.find_existing isListed d offset length)
      simp at same

theorem Accounted.serves (on : g.On s) (accounted : Accounted s state) {request : Request}
    (admitted : state.admits machine request = true)
    (careful : Careful g.shmem state.mem (state.cur machine) state.ledger.held request)
    {stores : List Store} {reply : Reply} {page : Option Nat}
    (returns : (serve g.shmem (g.dram state machine) request).Returns state.mem stores
      (reply, page)) : state.ledger.Serves (some request) (state.ledger.settle request reply) := by
  obtain ⟨_, _, _, _, consistent, _, now⟩ := accounted
  unfold Ledger.settle
  split
  · exact .allocate ..
  · obtain rfl := now ((State.admits_cases admitted).resolve_right (by simp [Request.heals]))
    rw [on.shmem] at returns
    exact .find _ _ _ (consistent.found_missing returns)
  · exact .free careful
  · exact .same _

theorem Ledger.interrupt_eq (ledger : Ledger) (request : Request) (reply : Reply) :
    ledger.interrupt request reply = ledger.settle request reply ∨
      ∃ region ∈ (ledger.settle request reply).held,
        ledger.interrupt request reply = (ledger.settle request reply).forsake region := by
  unfold Ledger.interrupt Ledger.settle
  split
  · exact .inr ⟨_, List.mem_cons_self, rfl⟩
  · exact .inr ⟨_, List.mem_cons_self, rfl⟩
  · exact .inl rfl
  · exact .inl rfl

/-- Every step serves a request or none, and a machine that dies may leave a region behind. -/
theorem Accounted.step_ledger (on : g.On s) (accounted : Accounted s state) {action : Action}
    (transition : g.step state action = some next) (allowed : g.Orderly state action next) :
    ∃ served, state.ledger.Serves action.request served ∧
      (next.ledger = served ∨ (∃ machine request made, action = .crash machine request made) ∧
        ∃ region ∈ served.held, next.ledger = served.forsake region) := by
  cases action with
  | call machine request =>
      obtain ⟨_, _, _, admitted, returns, rfl⟩ := returns_of_step transition
      exact ⟨_, accounted.serves on admitted allowed returns, .inl rfl⟩
  | crash machine request made =>
      unfold Setting.step at transition
      dsimp only at transition
      split at transition
      swap
      · exact absurd transition (by simp)
      rename_i admitted
      obtain rfl := Option.some.inj transition
      obtain ⟨careful, _⟩ := allowed
      unfold Setting.cutShort
      split
      · refine ⟨state.ledger, .same _, ?_⟩
        cases request with
        | free region => exact .inr ⟨⟨_, _, _, rfl⟩, region, careful, rfl⟩
        | _ => exact .inl rfl
      · split
        · rename_i ran
          obtain ⟨returns, _⟩ := returns_of_run ran
          refine ⟨_, accounted.serves on admitted careful returns, ?_⟩
          exact (Ledger.interrupt_eq ..).imp_right fun lost => ⟨⟨_, _, _, rfl⟩, lost⟩
        · exact ⟨_, .same _, .inl rfl⟩
  | write store =>
      obtain rfl := Option.some.inj transition
      exact ⟨_, .same _, .inl rfl⟩

/-- Nothing is held twice. -/
theorem Consistent.nodup (consistent : Consistent s m cur ledger pages headers live) :
    ledger.held.Nodup := by
  obtain ⟨_, _, _, invariant⟩ := consistent.sound.tree
  have distinct := consistent.blocks.nodup_iff.mpr invariant.distinct.of_map
  exact (List.nodup_append.mp distinct).1.of_map

end Steps

/-! ## Tidy runs -/

/-- `atomic_allocate_memory` is called with a name that is not in the directory, and the newest of
several objects is not freed. -/
def Request.Tidy (dir : Directory) : Request → Prop
  | .allocate _ name => dir.lookup name = none
  | .free region => dir.entries = [region] ∨ dir.entries.getLast? ≠ some region
  | _ => True

def Setting.Tidy (g : Setting) : Guard State Action := fun state action next =>
  g.Orderly state action next ∧ ∀ request ∈ action.request, request.Tidy state.ledger.dir

/-- The regions are in the directory, each under a name of its own. -/
structure Ledger.Tidy (ledger : Ledger) : Prop where
  names : (ledger.dir.entries.map Object.name).Nodup
  listed : ledger.held ⊆ ledger.dir.entries
  fresh : ledger.dir.stale = false

section Tidy

variable {ledger served : Ledger} {region : Object}

theorem Ledger.Tidy.split (tidy : ledger.Tidy) (isHeld : region ∈ ledger.held) :
    ∃ front back, ledger.dir.entries = front ++ region :: back ∧
      ∀ o ∈ front, o.name ≠ region.name := by
  obtain ⟨front, back, split⟩ := List.append_of_mem (tidy.listed isHeld)
  have names := tidy.names
  rw [split, List.map_append, List.map_cons] at names
  exact ⟨front, back, split, fun o inFront =>
    (List.nodup_append.mp names).2.2 _ (List.mem_map_of_mem inFront) _ List.mem_cons_self⟩

theorem Ledger.Tidy.lookup (tidy : ledger.Tidy) (isHeld : region ∈ ledger.held) :
    ledger.dir.lookup region.name = some region := by
  obtain ⟨front, back, split, others⟩ := tidy.split isHeld
  exact Directory.lookup_some split others rfl

theorem Ledger.Tidy.grant (tidy : ledger.Tidy) (missing : ledger.dir.lookup region.name = none) :
    (ledger.grant region).Tidy := by
  have others : ∀ o ∈ ledger.dir.entries, o.name ≠ region.name := fun o member => by
    simpa using List.find?_eq_none.mp missing o member
  have entered : ledger.dir.insert region = ⟨ledger.dir.entries ++ [region], false⟩ := by
    rw [Directory.insert, tidy.fresh, if_neg (by simp)]
  unfold Ledger.grant
  rw [entered]
  refine ⟨?_, fun o isHeld => ?_, rfl⟩
  · rw [List.map_append, List.nodup_append]
    refine ⟨tidy.names, List.nodup_singleton _, ?_⟩
    simpa using others
  · rcases List.mem_cons.mp isHeld with rfl | before
    · simp
    · exact List.mem_append_left _ (tidy.listed before)

theorem Ledger.Tidy.forsake (tidy : ledger.Tidy) (region : Object) : (ledger.forsake region).Tidy :=
  ⟨tidy.names, List.Subset.trans List.erase_subset tidy.listed, tidy.fresh⟩

theorem Ledger.Tidy.release (tidy : ledger.Tidy) (distinct : ledger.held.Nodup)
    (isHeld : region ∈ ledger.held)
    (allowed : ledger.dir.entries = [region] ∨ ledger.dir.entries.getLast? ≠ some region) :
    (ledger.release region).Tidy := by
  obtain ⟨front, back, split, others⟩ := tidy.split isHeld
  have names := tidy.names
  rw [split] at allowed names
  have removed := Directory.remove_some split others rfl
  unfold Ledger.release
  rw [removed]
  refine ⟨?_, fun o kept => ?_, ?_⟩
  · exact names.sublist (List.Sublist.map _
      (List.Sublist.append (List.Sublist.refl _) (List.sublist_cons_self _ _)))
  · obtain ⟨isOther, before⟩ := (distinct.mem_erase_iff).mp kept
    have listed := tidy.listed before
    rw [split] at listed
    simpa [isOther] using listed
  · cases back with
    | cons => simp [tidy.fresh]
    | nil =>
        have only : front = [] := by
          rcases allowed with single | notLast
          · simpa using congrArg List.length single
          · exact absurd (by simp) notLast
        simp [only]

theorem Ledger.Tidy.serves (tidy : ledger.Tidy) (distinct : ledger.held.Nodup)
    {request : Option Request} (serves : ledger.Serves request served)
    (allowed : ∀ r ∈ request, r.Tidy ledger.dir) : served.Tidy := by
  cases serves with
  | same => exact tidy
  | allocate obj length name => exact tidy.grant (allowed _ rfl)
  | find obj offset length missing => exact tidy.grant missing
  | free isHeld => exact tidy.release distinct isHeld (allowed _ rfl)

end Tidy

/-! ## Results over runs -/

section Runs

variable {s : Mapping} {g : Setting} {buddySize : Nat} {first machine : UInt16} {prior : Mem}
  {state next : State}

/-- A call of `find_allocation` that finds the name, or that need not allocate. -/
theorem step_find {offset length : Nat} {name : ProgId} (alive : state.dead = none)
    {findAlloc : VcxlFindAlloc}
    (finds :
      (findAllocation g.shmem (g.dram state machine) ⟨offset, length, name.toCString⟩).Returns
      state.mem [] ⟨findAlloc, none, state.cur machine⟩) :
    g.step state (.call machine (.find offset length name)) = some state := by
  have admitted : state.admits machine (.find offset length name) = true :=
    State.admits_of_alive alive rfl machine
  rw [step_of_returns admitted (serve_find finds), Function.update_eq_self, ← alive]
  rfl

/-- `find_allocation` of a name that it does not find is an allocation. -/
theorem step_find_missing {offset length : Nat} {name : ProgId} (alive : state.dead = none)
    (missing : (findObjHeader g.shmem name.toCString).Returns state.mem [] none)
    (positive : 0 < length) :
    g.step state (.call machine (.find offset length name)) =
      g.step state (.call machine (.allocate length name)) := by
  rcases allocates :
      atomicAllocateMemoryLockheld g.shmem (g.dram state machine) length name.toCString
      state.mem with ⟨stores, _ | ⟨result, page⟩⟩
  · have stops := @findAllocation_missing _ _ ⟨offset, length, name.toCString⟩ missing positive
      (g.dram state machine)
    rw [Shm.bind_of_none allocates] at stops
    rw [step_allocate_none (by rw [allocates]), step_of_stops (by rw [serve_find stops]; rfl)]
  · have admitted : state.admits machine (.find offset length name) = true :=
      State.admits_of_alive alive rfl machine
    have finds := @findAllocation_allocates _ _ ⟨offset, length, name.toCString⟩ missing positive _
      _ _ _ allocates
    rw [step_allocate alive allocates, step_of_returns admitted (serve_find finds)]
    cases result <;> rfl

/-- `find_allocation` goes by the directory, in every state of an orderly run with the lock free and
on every machine. -/
theorem find_by_directory
    (accepted : metaShmemOf g.memLength = some (g.shmem, buddySize)) (bound : g.memLength ≤ 2 ^ 62)
    (located : Layout.recoverMetaAddress g.memLength = some g.shmem.base)
    (reached : (g.machine buddySize first prior).Reachable g.Orderly state)
    (alive : state.dead = none) (machine : UInt16) (offset length : Nat) (name : ProgId) :
    (∀ object, state.ledger.dir.lookup name = some object →
      (findAllocation g.shmem (g.dram state machine) ⟨offset, length, name.toCString⟩).run
        state.mem =
          some (state.mem, ⟨⟨object.desc, true⟩, none, state.cur machine⟩) ∧
        g.step state (.call machine (.find offset length name)) = some state) ∧
    (state.ledger.dir.lookup name = none → length = 0 →
      (findAllocation g.shmem (g.dram state machine) ⟨offset, length, name.toCString⟩).run
        state.mem =
          some (state.mem, ⟨⟨⟨offset, length, name.toCString⟩, false⟩, none, state.cur machine⟩) ∧
        g.step state (.call machine (.find offset length name)) = some state) ∧
    (state.ledger.dir.lookup name = none → 0 < length →
      g.step state (.call machine (.find offset length name)) =
        g.step state (.call machine (.allocate length name))) := by
  obtain ⟨s, on, _, _, _, _, consistent, _, now⟩ :=
    accounted_of_reachable accepted bound located reached
  obtain rfl := now alive
  refine ⟨fun object isListed => ?_, fun missing empty => ?_, fun missing positive => ?_⟩
  · have finds := consistent.find_existing isListed (g.dram state machine) offset length
    rw [← on.shmem] at finds
    exact ⟨finds.run_eq, step_find alive finds⟩
  · have searched := consistent.search_missing missing
    rw [← on.shmem] at searched
    have finds := @findAllocation_empty _ _ ⟨offset, length, name.toCString⟩ searched empty
      (g.dram state machine)
    exact ⟨finds.run_eq, step_find alive finds⟩
  · have searched := consistent.search_missing missing
    rw [← on.shmem] at searched
    exact step_find_missing alive searched positive

/-- The newer of two regions, on a machine that has not joined. -/
theorem find_by_directory_newer : ∃ state, ∃ region ∈ state.ledger.held,
    state.ledger.held.length = 2 ∧
      (findAllocation smallSetting.shmem (smallSetting.dram state 2)
        ⟨7, 9, secondName.toCString⟩).run state.mem =
        some (state.mem, ⟨⟨region.desc, true⟩, none, state.cur 2⟩) := by
  obtain ⟨_, state, _, reached, filled, named⟩ :=
    smallSetting_filled [sampleName, secondName] (by decide)
  obtain ⟨older, newer, held, _, newName, entries, others⟩ := filled.two named (by decide)
  exact ⟨state, newer, held ▸ List.mem_cons_self, by rw [held]; rfl,
    ((find_by_directory smallSetting_accepted (by decide) smallSetting_located reached
      filled.alive 2 7 9 secondName).1 newer
        (newName ▸ Directory.lookup_some entries others rfl)).1⟩

theorem Accounted.step_tidy (on : g.On s) (located : g.Located) (accounted : Accounted s state)
    (tidy : state.ledger.Tidy) {action : Action} (transition : g.step state action = some next)
    (guarded : g.Tidy state action next) : Accounted s next ∧ next.ledger.Tidy := by
  obtain ⟨allowed, names⟩ := guarded
  refine ⟨(accounted.step on located transition allowed).1, ?_⟩
  obtain ⟨served, serves, outcome⟩ := accounted.step_ledger on transition allowed
  obtain ⟨_, _, _, _, consistent, _⟩ := accounted
  have after := tidy.serves consistent.nodup serves names
  rcases outcome with same | ⟨_, region, _, same⟩
  · exact same ▸ after
  · exact same ▸ after.forsake region

theorem tidy_initial (on : g.On s) (buddySize : Nat) (first : UInt16) (prior : Mem) :
    (g.machine buddySize first prior).initial.ledger = .empty ∧ Ledger.empty.Tidy := by
  obtain ⟨_, initial, _⟩ := on.initial buddySize first prior
  rw [initial]
  exact ⟨rfl, List.nodup_nil, List.Subset.refl _, rfl⟩

/-- States of tidy runs. -/
theorem tidy_of_reachable (on : g.On s) (located : g.Located)
    (reached : (g.machine buddySize first prior).Reachable g.Tidy state) :
    Accounted s state ∧ state.ledger.Tidy := by
  induction reached with
  | initial =>
      obtain ⟨isEmpty, tidy⟩ := tidy_initial on buddySize first prior
      exact ⟨accounted_initial on buddySize first prior, isEmpty ▸ tidy⟩
  | step _ transition guarded inductionHypothesis =>
      exact inductionHypothesis.1.step_tidy on located inductionHypothesis.2 transition guarded

/-- In tidy runs every region that is held is found by its name, on every machine, whatever
machines died and recovered on the way. -/
theorem tidy_regions_found
    (accepted : metaShmemOf g.memLength = some (g.shmem, buddySize)) (bound : g.memLength ≤ 2 ^ 62)
    (located : Layout.recoverMetaAddress g.memLength = some g.shmem.base)
    (reached : (g.machine buddySize first prior).Reachable g.Tidy state)
    (alive : state.dead = none) {region : Object} (isHeld : region ∈ state.ledger.held)
    (machine : UInt16) (offset length : Nat) :
    (findAllocation g.shmem (g.dram state machine) ⟨offset, length, region.name.toCString⟩).run
      state.mem = some (state.mem, ⟨⟨region.desc, true⟩, none, state.cur machine⟩) := by
  obtain ⟨s, shmem, memLength⟩ := exists_mapping accepted bound
  have on : g.On s := ⟨shmem.symm, memLength.symm⟩
  obtain ⟨⟨_, _, _, _, consistent, _, now⟩, tidy⟩ := tidy_of_reachable on located reached
  obtain rfl := now alive
  have finds := consistent.find_existing (tidy.lookup isHeld) (g.dram state machine) offset length
  rw [← on.shmem] at finds
  exact finds.run_eq

/-- A run with one allocation, under a guard that admits it. -/
theorem smallSetting_first {guard : Guard State Action}
    (admits : ∀ state next, state.ledger.dir.lookup sampleName = none →
      smallSetting.Orderly state (.call 1 (.allocate 4096 sampleName)) next →
      guard state (.call 1 (.allocate 4096 sampleName)) next) :
    ∃ s state region, smallSetting.On s ∧
      (smallSetting.machine 768 1 fun _ => 0).Reachable guard state ∧ Filling s 1 4096 state ∧
      state.ledger.held = [region] ∧ region.name = sampleName := by
  obtain ⟨s, shmem, memLength⟩ := exists_mapping smallSetting_accepted (by decide)
  have on : smallSetting.On s := ⟨shmem.symm, memLength.symm⟩
  have empty := on.filling 768 1 (fun _ => 0) 4096
  obtain ⟨isEmpty, _⟩ := tidy_initial on 768 1 fun _ => 0
  obtain ⟨next, transition, allowed, filled, held⟩ :=
    smallSetting_next on empty (by rw [isEmpty]; exact Nat.succ_pos _) sampleName
  rw [isEmpty] at held
  exact ⟨s, next, _, on,
    reachable_step .initial transition (admits _ _ (by rw [isEmpty]; rfl) allowed),
    filled, held, rfl⟩

/-- After an allocation its machine dies in another call, a second one helps, and a third one looks
for the region. -/
theorem tidy_regions_found_helped : ∃ state healed : State, ∃ region ∈ healed.ledger.held,
    state.dead = some 1 ∧ smallSetting.step state (.call 2 .help) = some healed ∧
      (findAllocation smallSetting.shmem (smallSetting.dram healed 3)
        ⟨0, 0, region.name.toCString⟩).run healed.mem =
        some (healed.mem, ⟨⟨region.desc, true⟩, none, healed.cur 3⟩) := by
  obtain ⟨s, next, region, on, start, filled, held, _⟩ := @smallSetting_first smallSetting.Tidy
    fun _ _ missing allowed => ⟨allowed, fun request isRequest => by
      obtain rfl := Option.some.inj isRequest
      exact missing⟩
  obtain ⟨state, crashed, isDead, same⟩ : ∃ state,
      smallSetting.step next (.crash 1 .recover 0) = some state ∧ state.dead = some 1 ∧
        state.ledger = next.ledger :=
    ⟨_, if_pos (State.admits_of_alive filled.alive rfl 1), rfl, by
      dsimp only
      rw [Setting.cutShort, if_pos rfl]
      rfl⟩
  have broken := reachable_step start crashed ⟨⟨trivial, .inl rfl⟩, fun request isRequest => by
    obtain rfl := Option.some.inj isRequest
    trivial⟩
  have heals : Request.heals .help = true := rfl
  obtain ⟨stores, reply, page, returns, _⟩ :=
    (tidy_of_reachable on smallSetting_located broken).1.heal on 2
      (fun _ => smallSetting_located) heals
  obtain ⟨healed, helped, alive, isLedger⟩ : ∃ healed,
      smallSetting.step state (.call 2 .help) = some healed ∧ healed.dead = none ∧
        healed.ledger = next.ledger :=
    ⟨_, step_of_returns (by rw [State.admits, isDead]; rfl) returns, rfl,
      (state.ledger.settle_of_heals heals reply).1.trans same⟩
  have reached := reachable_step broken helped ⟨trivial, fun request isRequest => by
    obtain rfl := Option.some.inj isRequest
    trivial⟩
  have isHeld : region ∈ healed.ledger.held := by
    rw [isLedger, held]
    exact List.mem_singleton_self _
  exact ⟨state, healed, region, isHeld, isDead, helped, tidy_regions_found smallSetting_accepted
    (by decide) smallSetting_located reached alive isHeld 3 0 0⟩

/-- A free that finds a header it can take off the list. -/
theorem Consistent.step_free {pages headers : List Nat} {live : List (Nat × Nat)}
    (consistent : Consistent s state.mem state.cur state.ledger pages headers live) (on : g.On s)
    (alive : state.dead = none) {region object : Object} (isHeld : region ∈ state.ledger.held)
    (isListed : state.ledger.dir.lookup region.name = some object)
    (removable : ¬ state.ledger.dir.Blocked region.name) (machine : UInt16) :
    ∃ next headers' live', g.step state (.call machine (.free region)) = some next ∧
      next.ledger = state.ledger.release region ∧ next.cur = state.cur ∧ next.dead = none ∧
      Consistent s next.mem next.cur next.ledger pages headers' live' ∧
      g.hasBlock next.mem region.length = true ∧
      ∃ p ∈ pages, 0 < next.mem.read 2 (availableSlotsAddr p) := by
  have admitted : state.admits machine (.free region) = true :=
    State.admits_of_alive alive rfl machine
  obtain ⟨stores, headers', live', returns, now, hasBlock, slot⟩ :=
    consistent.frees (g.dram state machine) isHeld isListed removable
  rw [← on.shmem] at returns
  have same : Function.update state.cur machine (state.cur machine) = state.cur :=
    Function.update_eq_self ..
  exact ⟨_, headers', live', step_of_returns admitted (serve_free returns), rfl, same, rfl,
    same.symm ▸ now, (on.hasBlock_iff _ _).mpr hasBlock, slot⟩

/-- What a free of a region comes to, in every state of an orderly run with the lock free. If the
name is not in the directory, memory stays as it is. If it is that of the oldest of several objects,
the call never returns. Otherwise there is a block for a request of the region's length afterwards.
-/
theorem free_outcome
    (accepted : metaShmemOf g.memLength = some (g.shmem, buddySize)) (bound : g.memLength ≤ 2 ^ 62)
    (located : Layout.recoverMetaAddress g.memLength = some g.shmem.base)
    (reached : (g.machine buddySize first prior).Reachable g.Orderly state)
    (alive : state.dead = none) {region : Object} (isHeld : region ∈ state.ledger.held)
    (machine : UInt16) :
    (state.ledger.dir.lookup region.name = none →
      g.step state (.call machine (.free region)) =
        some { state with ledger := state.ledger.release region }) ∧
    (state.ledger.dir.Blocked region.name → g.step state (.call machine (.free region)) = none) ∧
    (∀ object, state.ledger.dir.lookup region.name = some object →
      ¬ state.ledger.dir.Blocked region.name →
      ∃ next, g.step state (.call machine (.free region)) = some next ∧
        next.ledger = state.ledger.release region ∧ g.hasBlock next.mem region.length = true) := by
  obtain ⟨s, on, _, pages, headers, live, consistent, _, now⟩ :=
    accounted_of_reachable accepted bound located reached
  obtain rfl := now alive
  have admitted : state.admits machine (.free region) = true :=
    State.admits_of_alive alive rfl machine
  refine ⟨fun missing => ?_, fun blocked => ?_, fun object isListed removable => ?_⟩
  · have notFound : headers.find? (namedAt state.mem region.name.toCString) = none :=
      ((find_split consistent.directory.entries region.name).resolve_right fun isListed => by
        obtain ⟨_, _, _, _, _, _, _, split, _, _, _, others, named, _⟩ := isListed
        exact absurd (missing.symm.trans (Directory.lookup_some split others named)) (by simp)).1
    have unchanged := (consistent.free_missing (g.dram state machine) isHeld notFound).1
    rw [← on.shmem] at unchanged
    rw [step_of_returns admitted (serve_free unchanged), Option.some.injEq, State.mk.injEq]
    exact ⟨rfl, Function.update_eq_self .., rfl, alive.symm⟩
  · have stops := consistent.free_blocked (g.dram state machine) isHeld blocked
    rw [← on.shmem] at stops
    rcases ran : atomicFreeMemory g.shmem (g.dram state machine) region.desc state.mem with
      ⟨stores, result⟩
    rw [ran] at stops
    obtain rfl : result = none := stops
    exact step_of_stops (by rw [serve_free ran]; rfl)
  · obtain ⟨next, _, _, freed, released, _, _, _, hasBlock, _⟩ :=
      consistent.step_free on alive isHeld isListed removable machine
    exact ⟨next, freed, released, hasBlock⟩

/-- The newer of two regions, on another machine. -/
theorem free_outcome_newer : ∃ state next, ∃ region ∈ state.ledger.held,
    smallSetting.step state (.call 2 (.free region)) = some next ∧ next.ledger.held.length = 1 ∧
      smallSetting.hasBlock next.mem 4096 = true := by
  obtain ⟨_, state, _, reached, filled, named⟩ :=
    smallSetting_filled [sampleName, secondName] (by decide)
  obtain ⟨older, newer, held, _, _, entries, others⟩ := filled.two named (by decide)
  have isHeld : newer ∈ state.ledger.held := held ▸ List.mem_cons_self
  obtain ⟨next, freed, released, hasBlock⟩ := (free_outcome smallSetting_accepted (by decide)
    smallSetting_located reached filled.alive isHeld 2).2.2 newer
    (Directory.lookup_some entries others rfl) (Directory.not_blocked entries others)
  refine ⟨state, next, newer, isHeld, freed, ?_, filled.lengths newer isHeld ▸ hasBlock⟩
  rw [released, Ledger.release, held]
  simp

/-- Runs that never leave the directory empty. -/
def Setting.Crowded (g : Setting) : Guard State Action := fun state action next =>
  g.Orderly state action next ∧ next.ledger.dir.entries ≠ []

theorem Ledger.Serves.dir_of_stale {ledger served : Ledger} {request : Option Request}
    (serves : ledger.Serves request served) (stale : ledger.dir.stale = true) :
    served.dir.entries ⊆ ledger.dir.entries ∧
      (served.dir.entries ≠ [] → served.dir.stale = true) := by
  have kept : ∀ region, ledger.dir.insert region = ledger.dir := fun region => by
    rw [Directory.insert, if_pos stale]
  cases serves with
  | same => exact ⟨List.Subset.refl _, fun _ => stale⟩
  | allocate obj length name =>
      rw [Ledger.grant, kept]
      exact ⟨List.Subset.refl _, fun _ => stale⟩
  | find obj offset length missing =>
      rw [Ledger.grant, kept]
      exact ⟨List.Subset.refl _, fun _ => stale⟩
  | free isHeld => exact ⟨Directory.remove_subset _ _, Directory.remove_of_stale stale _⟩

/-- A directory that is stale stays so and takes no entry. -/
theorem stale_of_reachable (on : g.On s) (located : g.Located) {start : State}
    (accounted : Accounted s start) (stale : start.ledger.dir.stale = true) {name : ProgId}
    (missing : start.ledger.dir.lookup name = none)
    (later : Machine.Reachable ⟨start, g.step⟩ g.Crowded state) :
    Accounted s state ∧ state.ledger.dir.stale = true ∧ state.ledger.dir.lookup name = none := by
  induction later with
  | initial => exact ⟨accounted, stale, missing⟩
  | @step _ next _ _ transition guarded inductionHypothesis =>
      obtain ⟨before, wasStale, wasMissing⟩ := inductionHypothesis
      obtain ⟨allowed, crowded⟩ := guarded
      obtain ⟨served, serves, outcome⟩ := before.step_ledger on transition allowed
      obtain ⟨less, stays⟩ := serves.dir_of_stale wasStale
      have sameDir : next.ledger.dir = served.dir := by
        rcases outcome with same | ⟨_, region, _, same⟩
        · rw [same]
        · rw [same]
          rfl
      rw [sameDir] at crowded ⊢
      refine
        ⟨(before.step on located transition allowed).1, stays crowded, Directory.lookup_none ?_⟩
      exact fun o member => Directory.others_of_lookup wasMissing o (less member)

/-- A name that is missing from a stale directory stays missing in every orderly run, whatever is
allocated under it, until the directory has become empty: `find_allocation` of the name does not
find it and allocates. -/
theorem stale_names_missing
    (accepted : metaShmemOf g.memLength = some (g.shmem, buddySize)) (bound : g.memLength ≤ 2 ^ 62)
    (located : Layout.recoverMetaAddress g.memLength = some g.shmem.base)
    {start : State} (reached : (g.machine buddySize first prior).Reachable g.Orderly start)
    (stale : start.ledger.dir.stale = true) {name : ProgId}
    (missing : start.ledger.dir.lookup name = none)
    (later : Machine.Reachable ⟨start, g.step⟩ g.Crowded state)
    (alive : state.dead = none) (machine : UInt16) (offset : Nat) :
    (findAllocation g.shmem (g.dram state machine) ⟨offset, 0, name.toCString⟩).run state.mem =
        some (state.mem, ⟨⟨⟨offset, 0, name.toCString⟩, false⟩, none, state.cur machine⟩) ∧
      ∀ length, 0 < length → g.step state (.call machine (.find offset length name)) =
        g.step state (.call machine (.allocate length name)) := by
  obtain ⟨s, on, accounted⟩ := accounted_of_reachable accepted bound located reached
  obtain ⟨kept, wasStale, missing⟩ := stale_of_reachable on located accounted stale missing later
  obtain ⟨_, _, _, _, consistent, _, now⟩ := kept
  obtain rfl := now alive
  have searched := consistent.search_missing missing
  rw [← on.shmem] at searched
  have finds := @findAllocation_empty _ _ ⟨offset, 0, name.toCString⟩ searched rfl
    (g.dram state machine)
  exact ⟨finds.run_eq, fun length positive => step_find_missing alive searched positive⟩

/-- The newer of two regions is freed. -/
theorem stale_names_missing_second : ∃ start : State, start.ledger.held.length = 1 ∧
    smallSetting.step start (.call 2 (.find 0 4096 secondName)) =
      smallSetting.step start (.call 2 (.allocate 4096 secondName)) := by
  obtain ⟨s, state, on, reached, filled, named⟩ :=
    smallSetting_filled [sampleName, secondName] (by decide)
  obtain ⟨older, newer, held, _, newName, entries, before⟩ := filled.two named (by decide)
  have isHeld : newer ∈ state.ledger.held := held ▸ List.mem_cons_self
  obtain ⟨_, _, consistent⟩ := filled.consistent
  obtain ⟨start, _, _, transition, released, _, alive, _⟩ := consistent.step_free on filled.alive
    isHeld (Directory.lookup_some entries before rfl) (Directory.not_blocked entries before) 2
  have dir : start.ledger.dir = ⟨[older], true⟩ := by
    rw [released, Ledger.release, Directory.remove_some entries before rfl]
    simp
  refine ⟨start, ?_, (stale_names_missing smallSetting_accepted (by decide) smallSetting_located
    (reachable_step reached transition isHeld) (by rw [dir]) (Directory.lookup_none (by
      rw [dir, ← newName]
      exact before)) .initial alive 2 0).2 4096 (by decide)⟩
  rw [released, Ledger.release, held]
  simp

/-- Tidy runs in which no machine dies. -/
def Setting.Lossless (g : Setting) : Guard State Action := fun state action next =>
  g.Tidy state action next ∧ ∀ machine request made, action ≠ .crash machine request made

/-- Nothing is lost when a name that is listed is given back. -/
theorem Ledger.Tidy.lost_of_serves {ledger served : Ledger} (tidy : ledger.Tidy)
    {request : Option Request} (serves : ledger.Serves request served) :
    served.lost = ledger.lost := by
  cases serves with
  | free isHeld => rw [Ledger.release, tidy.lookup isHeld, Option.isSome_some, if_pos rfl]
  | _ => rfl

theorem lossless_of_reachable (on : g.On s) (located : g.Located)
    (reached : (g.machine buddySize first prior).Reachable g.Lossless state) :
    Accounted s state ∧ state.ledger.Tidy ∧ state.ledger.lost = [] := by
  induction reached with
  | initial =>
      obtain ⟨isEmpty, tidy⟩ := tidy_initial on buddySize first prior
      exact ⟨accounted_initial on buddySize first prior, isEmpty ▸ tidy, isEmpty ▸ rfl⟩
  | step _ transition guarded inductionHypothesis =>
      obtain ⟨accounted, tidy, nothing⟩ := inductionHypothesis
      obtain ⟨inTidy, noCrash⟩ := guarded
      obtain ⟨after, stillTidy⟩ := accounted.step_tidy on located tidy transition inTidy
      obtain ⟨served, serves, outcome⟩ := accounted.step_ledger on transition inTidy.1
      refine ⟨after, stillTidy, ?_⟩
      rcases outcome with same | ⟨⟨machine, request, made, isCrash⟩, _⟩
      · rw [same, tidy.lost_of_serves serves, nothing]
      · exact absurd isCrash (noCrash machine request made)

/-- In tidy runs without deaths no memory is lost: a place of the size class of a request that meets
no region and no record page is enough for the request not to be refused. -/
theorem unused_space_found
    (accepted : metaShmemOf g.memLength = some (g.shmem, buddySize)) (bound : g.memLength ≤ 2 ^ 62)
    (located : Layout.recoverMetaAddress g.memLength = some g.shmem.base)
    (reached : (g.machine buddySize first prior).Reachable g.Lossless state)
    (alive : state.dead = none) {length place : Nat}
    (large : length ≤ blockSize g.shmem.buddyAlloc length)
    (multiple : blockSize g.shmem.buddyAlloc length ∣ place)
    (inside : place + blockSize g.shmem.buddyAlloc length ≤ g.shmem.buddyAlloc.memorySize)
    (regions : ∀ region ∈ state.ledger.held, Apart region.offset
      (blockSize g.shmem.buddyAlloc region.length) (g.shmem.buddyAlloc.main + place)
      (blockSize g.shmem.buddyAlloc length))
    (pages : ∀ page, walkQueue state.mem (· == page) g.shmem.objAllocs = some (some page) →
      page ≠ firstRecords → Apart page (blockSize g.shmem.buddyAlloc sizeofRecords)
        (g.shmem.buddyAlloc.main + place) (blockSize g.shmem.buddyAlloc length)) :
    g.hasBlock state.mem length = true := by
  obtain ⟨s, shmem, memLength⟩ := exists_mapping accepted bound
  have on : g.On s := ⟨shmem.symm, memLength.symm⟩
  obtain ⟨⟨_, pageList, headers, live, consistent, _, now⟩, _, nothing⟩ :=
    lossless_of_reachable on located reached
  obtain rfl := now alive
  obtain ⟨_, _, atEnd, invariant⟩ := consistent.sound.tree
  rw [on.hasBlock_iff]
  rw [on.shmem, s.buddyAlloc_eq] at large multiple inside regions pages
  by_contra noBlock
  obtain ⟨block, isLive, meet⟩ := invariant.complete atEnd (Bool.eq_false_iff.mpr noBlock) large
    multiple inside
  have taken := consistent.blocks.mem_iff.mpr isLive
  rw [Ledger.blocks, nothing, List.append_nil] at taken
  refine meet ?_
  rcases List.mem_append.mp taken with ofRegion | ofPage
  · obtain ⟨region, isHeld, rfl⟩ := List.mem_map.mp ofRegion
    exact regions region isHeld
  · obtain ⟨page, member, rfl⟩ := List.mem_map.mp ofPage
    obtain ⟨isPage, notFirst⟩ := List.mem_filter.mp member
    refine pages page ?_ (by simpa using notFirst)
    rw [consistent.sound.shape.pages_walkQueue_eq, Option.some.injEq]
    obtain ⟨found, isFound⟩ : ∃ found, pageList.find? (· == page) = some found :=
      Option.isSome_iff_exists.mp (List.find?_isSome.mpr ⟨page, isPage, beq_self_eq_true page⟩)
    have same := List.find?_some isFound
    rw [isFound, eq_of_beq same]

/-- After an allocation and a free the start of the arena can be found. -/
theorem unused_space_found_freed : ∃ full state region,
    full.ledger.held = [region] ∧
      smallSetting.step full (.call 2 (.free region)) = some state ∧ state.ledger.held = [] ∧
      smallSetting.hasBlock state.mem 4096 = true := by
  obtain ⟨s, full, region, on, start, filled, held, named⟩ := @smallSetting_first
    smallSetting.Lossless fun _ _ missing allowed => ⟨⟨allowed, fun request isRequest => by
      obtain rfl := Option.some.inj isRequest
      exact missing⟩, nofun⟩
  have isHeld : region ∈ full.ledger.held := held ▸ List.mem_singleton_self _
  have entries : full.ledger.dir.entries = [] ++ region :: [] := by
    rw [filled.dir, held]
    rfl
  have removable : ¬ full.ledger.dir.Blocked region.name := fun ⟨_, _, _, several, _⟩ => by
    simp [entries] at several
  obtain ⟨headers, live, consistent⟩ := filled.consistent
  obtain ⟨state, _, _, freed, released, _, alive, now, _⟩ := consistent.step_free on filled.alive
    isHeld (Directory.lookup_some entries (by simp) rfl) removable 2
  have reached := reachable_step start freed ⟨⟨isHeld, fun request isRequest => by
    obtain rfl := Option.some.inj isRequest
    exact .inl entries⟩, nofun⟩
  have nothing : state.ledger.held = [] := by
    rw [released, Ledger.release, held]
    simp
  refine ⟨full, state, region, held, freed, nothing, unused_space_found smallSetting_accepted
    (by decide) smallSetting_located reached alive
    (by decide : 4096 ≤ blockSize smallSetting.shmem.buddyAlloc 4096) (Nat.dvd_zero _) (by decide)
    (by rw [nothing]; exact fun _ none => absurd none List.not_mem_nil)
    fun page isPage notFirst => ?_⟩
  rw [on.shmem, now.sound.shape.pages_walkQueue_eq, Option.some.injEq] at isPage
  exact absurd (List.mem_singleton.mp (List.mem_of_find?_eq_some isPage)) notFirst

end Runs

end Lupin.Alloc
