import Lupin.Alloc.Calls

/-!
# Names as a finite map

`find_allocation` and `atomic_free_memory` are there for a map from names to regions that all
machines share. As long as the header that `pe_tail` points to stays on the list, what
`find_allocation` returns is what the map has.
-/

namespace Lupin.Alloc

open Lupin.Memory Lupin.HeapIndex Lupin.LevelTree Lupin.Buddy Lupin.Log Lupin.LinkedList
  Lupin.Transition

/-- Offset and length of the region of each name. -/
abbrev NameMap := ProgId → Option (Nat × Nat)

/-- The map after a call. `find_allocation` with a length creates a name that is not there, with the
offset it returns, and a free removes its name. -/
def NameMap.after (names : NameMap) : Request → Reply → NameMap
  | .find _ length name, .found findAlloc _ =>
      if names name = none ∧ 0 < length then
        Function.update names name (some (findAlloc.desc.offset, length))
      else names
  | .free region, .freed 0 => Function.update names region.name none
  | _, _ => names

/-- A call, with what it means for the map. -/
def Setting.nameStep (g : Setting) (current : State × NameMap) :
    Action → Option (State × NameMap)
  | .call machine request => do
      let next ← g.step current.1 (.call machine request)
      let (_, reply, _) ← (serve g.shmem (g.dram current.1 machine) request).run current.1.mem
      pure (next, current.2.after request reply)
  | _ => none

/-- Clients look names up and create them while there is memory, and free what a creation has
returned. Machines join where `recover_meta` comes to the metadata. -/
def Setting.NameCalls (g : Setting) : Guard (State × NameMap) Action := fun current action _ =>
  match action with
  | .call _ (.find _ length name) =>
      current.2 name = none → 0 < length → g.hasBlock current.1.mem length = true
  | .call _ (.free region) => current.2 region.name = some region.block
  | .call _ .recover => g.Located
  | _ => False

/-- A page that is taken with an object is apart from it, and a header that is taken off the list
does not leave `pe_tail` behind. -/
def Setting.KeepsTail (g : Setting) : Guard (State × NameMap) Action := fun current action _ =>
  let m := current.1.mem
  match action with
  | .call machine (.find offset length name) =>
      Careful g.shmem m (current.1.cur machine) current.1.ledger.held (.find offset length name)
  | .call _ (.free region) =>
      m.read 8 (peTail g.shmem.objHeaders) = m.read 8 (peFirst g.shmem.objHeaders) ∨
        namedAt m region.name.toCString (m.read 8 (peTail g.shmem.objHeaders)) = false
  | _ => True

def Setting.TailedCalls (g : Setting) : Guard (State × NameMap) Action :=
  fun current action next => g.NameCalls current action next ∧ g.KeepsTail current action next

section Directory

variable {dir : Directory} {region : Object}

theorem Directory.lookup_insert (fresh : dir.stale = false)
    (missing : dir.lookup region.name = none) (name : ProgId) :
    (dir.insert region).lookup name =
      if name = region.name then some region else dir.lookup name := by
  rw [Directory.insert, if_neg (by simp [fresh])]
  by_cases same : name = region.name
  · rw [if_pos same, same]
    exact Directory.lookup_some rfl (Directory.others_of_lookup missing) rfl
  · rw [if_neg same, Directory.lookup, Directory.lookup, List.find?_append]
    simp [Ne.symm same]

theorem Directory.lookup_remove (distinct : (dir.entries.map Object.name).Nodup)
    (isListed : dir.lookup region.name = some region) (name : ProgId) :
    (dir.remove region.name).lookup name =
      if name = region.name then none else dir.lookup name := by
  obtain ⟨_, front, back, split, others⟩ := Directory.split_of_lookup isListed
  rw [Directory.remove_some split others rfl]
  by_cases same : name = region.name
  · rw [if_pos same, same]
    refine Directory.lookup_none fun o member => ?_
    rw [split, List.map_append, List.map_cons] at distinct
    have behind := (List.nodup_cons.mp (List.nodup_append.mp distinct).2.1).1
    rcases List.mem_append.mp member with inFront | inBack
    · exact others o inFront
    · exact fun isName => behind (isName ▸ List.mem_map_of_mem inBack)
  · rw [if_neg same, Directory.lookup, Directory.lookup, split, List.find?_append,
      List.find?_append, List.find?_cons_of_neg (by simpa using Ne.symm same)]

end Directory

/-! ## The invariant -/

/-- The state is consistent, and the map is what the directory has. -/
structure Named (s : Mapping) (current : State × NameMap) : Prop where
  accounted : Accounted s current.1
  alive : current.1.dead = none
  tidy : current.1.ledger.Tidy
  known : current.1.ledger.dir.entries ⊆ current.1.ledger.held
  names : ∀ name, current.2 name = (current.1.ledger.dir.lookup name).map Object.block

section Steps

variable {s : Mapping} {g : Setting} {state : State} {names : NameMap} {machine : UInt16}
  {region : Object} {next : State × NameMap}

theorem Named.consistent (named : Named s (state, names)) : ∃ pages headers live,
    Consistent s state.mem state.cur state.ledger pages headers live := by
  obtain ⟨m, pages, headers, live, consistent, _, now⟩ := named.accounted
  obtain rfl := now named.alive
  exact ⟨pages, headers, live, consistent⟩

/-- What the map has for a name is a region that is held. -/
theorem Named.held (named : Named s (state, names))
    (isNamed : names region.name = some region.block) :
    region ∈ state.ledger.held ∧ state.ledger.dir.lookup region.name = some region := by
  have listed := named.names region.name
  dsimp only at listed
  rw [isNamed] at listed
  obtain ⟨object, isListed, same⟩ := Option.map_eq_some_iff.mp listed.symm
  obtain ⟨isName, _⟩ := Directory.split_of_lookup isListed
  obtain ⟨isOffset, isLength⟩ := Prod.mk.inj same
  obtain rfl : object = region := by
    cases object
    cases region
    rw [Object.mk.injEq]
    exact ⟨isOffset, isLength, isName⟩
  exact ⟨named.known (List.mem_of_find?_eq_some isListed), isListed⟩

/-- `pe_tail` is the header of the last entry. -/
theorem Consistent.tail_named {m : Mem} {cur : UInt16 → Option Nat} {ledger : Ledger}
    {pages headers : List Nat} {live : List (Nat × Nat)}
    (consistent : Consistent s m cur ledger pages headers live) (fresh : ledger.dir.stale = false)
    (isLast : ledger.dir.entries.getLast? = some region)
    (keeps : m.read 8 (peTail s.shmem.objHeaders) = m.read 8 (peFirst s.shmem.objHeaders) ∨
      namedAt m region.name.toCString (m.read 8 (peTail s.shmem.objHeaders)) = false) :
    ledger.dir.entries = [region] := by
  obtain ⟨front, split⟩ := List.getLast?_eq_some_iff.mp isLast
  have shape := consistent.sound.shape
  obtain ⟨hFront, h, rfl, here, before⟩ : ∃ hFront h, headers = hFront ++ [h] ∧
      ObjectAt m h region ∧ hFront.length = front.length := by
    have related := List.forall₂_reverse_iff.mpr consistent.directory.entries
    rw [split, List.reverse_concat] at related
    generalize isReversed : headers.reverse = reversed at related
    cases related with
    | @cons h _ rest _ here others =>
        refine ⟨rest.reverse, h, ?_, here, ?_⟩
        · rw [← List.reverse_reverse headers, isReversed, List.reverse_cons]
        · rw [List.length_reverse, others.length_eq, List.length_reverse]
  have isTail := consistent.directory.tail_eq shape fresh (by simp)
  rw [List.getLastD_concat] at isTail
  rw [isTail, shape.headerList.first] at keeps
  have isFirst := keeps.resolve_right fun other => by
    rw [here.name.namedAt_iff.mpr rfl] at other
    exact absurd other (by simp)
  cases hFront with
  | nil =>
      rw [split, List.length_eq_zero_iff.mp before.symm]
      rfl
  | cons head rest =>
      have distinct := shape.headerList.nodup
      obtain rfl : h = head := isFirst
      exact absurd (List.mem_append_right _ List.mem_cons_self) (List.nodup_cons.mp distinct).1

/-- A call that is a step, with its reply. -/
theorem nameStep_call {request : Request}
    (transition : g.nameStep (state, names) (.call machine request) = some next) :
    ∃ stores reply page, state.admits machine request = true ∧
      (serve g.shmem (g.dram state machine) request).Returns state.mem stores (reply, page) ∧
      next = (⟨state.mem.apply stores, Function.update state.cur machine page,
        state.ledger.settle request reply, none⟩, names.after request reply) := by
  obtain ⟨after, taken, transition⟩ := Option.bind_eq_some_iff.mp transition
  obtain ⟨stores, reply, page, admitted, returns, rfl⟩ := returns_of_step taken
  dsimp only at transition
  rw [returns.run_eq] at transition
  exact ⟨stores, reply, page, admitted, returns, (Option.some.inj transition).symm⟩

/-- A call that leaves the directory and the map. -/
theorem Named.same (named : Named s (state, names)) {next : State} (accounted : Accounted s next)
    (alive : next.dead = none) (ledger : next.ledger = state.ledger) : Named s (next, names) := by
  refine ⟨accounted, alive, ?_, ?_, ?_⟩ <;> dsimp only <;> rw [ledger]
  · exact named.tidy
  · exact named.known
  · exact named.names

theorem Named.grant (named : Named s (state, names)) {next : State} (accounted : Accounted s next)
    (alive : next.dead = none) (ledger : next.ledger = state.ledger.grant region)
    (missing : state.ledger.dir.lookup region.name = none) :
    Named s (next, Function.update names region.name (some region.block)) := by
  refine ⟨accounted, alive, ?_, ?_, fun name => ?_⟩ <;> dsimp only <;> rw [ledger]
  · exact named.tidy.grant missing
  · have fresh := named.tidy.fresh
    dsimp only at fresh
    rw [Ledger.grant, Directory.insert, if_neg (by simp [fresh])]
    intro object listed
    rcases List.mem_append.mp listed with before | isNew
    · exact List.mem_cons_of_mem _ (named.known before)
    · exact List.mem_cons.mpr (.inl (List.mem_singleton.mp isNew))
  · rw [Ledger.grant, Directory.lookup_insert named.tidy.fresh missing]
    by_cases same : name = region.name
    · rw [if_pos same, same, Function.update_self]
      rfl
    · rw [if_neg same, Function.update_of_ne same]
      exact named.names name

theorem Named.release (named : Named s (state, names)) {next : State}
    (accounted : Accounted s next) (alive : next.dead = none)
    (ledger : next.ledger = state.ledger.release region)
    (isNamed : names region.name = some region.block)
    (allowed : state.ledger.dir.entries = [region] ∨
      state.ledger.dir.entries.getLast? ≠ some region) :
    Named s (next, Function.update names region.name none) := by
  obtain ⟨isHeld, isListed⟩ := named.held isNamed
  obtain ⟨_, _, _, consistent⟩ := named.consistent
  refine ⟨accounted, alive, ?_, ?_, fun name => ?_⟩ <;> dsimp only <;> rw [ledger]
  · exact named.tidy.release consistent.nodup isHeld allowed
  · intro object listed
    have gone : (state.ledger.dir.remove region.name).lookup region.name = none := by
      rw [Directory.lookup_remove named.tidy.names isListed, if_pos rfl]
    have other : object ≠ region := fun same =>
      Directory.others_of_lookup gone object listed (same ▸ rfl)
    exact (List.mem_erase_of_ne other).mpr (named.known (Directory.remove_subset _ _ listed))
  · rw [Ledger.release, Directory.lookup_remove named.tidy.names isListed]
    by_cases same : name = region.name
    · rw [if_pos same, same, Function.update_self]
      rfl
    · rw [if_neg same, Function.update_of_ne same]
      exact named.names name

theorem Named.step_find (on : g.On s) (named : Named s (state, names)) {offset length : Nat}
    {name : ProgId}
    (enough : names name = none → 0 < length → g.hasBlock state.mem length = true)
    (careful : Careful g.shmem state.mem (state.cur machine) state.ledger.held
      (.find offset length name)) {stores : List Store} {reply : Reply} {page : Option Nat}
    (returns : (serve g.shmem (g.dram state machine) (.find offset length name)).Returns state.mem
      stores (reply, page)) :
    Named s (⟨state.mem.apply stores, Function.update state.cur machine page,
      state.ledger.settle (.find offset length name) reply, none⟩,
      names.after (.find offset length name) reply) := by
  obtain ⟨pages, headers, live, consistent⟩ := named.consistent
  have accounted := (named.accounted.call on named.alive (by simp) careful returns).accounted.1
  have isNames := named.names name
  dsimp only at isNames
  obtain ⟨result, finds, same⟩ := Shm.Returns.of_bind_pure returns
  obtain ⟨rfl, rfl⟩ := Prod.mk.inj same
  rw [on.shmem] at finds
  rcases consistent.search name with ⟨missing, notFound⟩ | ⟨object, h, isListed, _⟩
  · rw [missing] at isNames
    rcases Nat.eq_zero_or_pos length with empty | positive
    · obtain ⟨rfl, rfl⟩ := finds.unique
        (@findAllocation_empty _ _ ⟨offset, length, name.toCString⟩ notFound empty _)
      rw [NameMap.after, if_neg (by omega)]
      exact named.same accounted rfl rfl
    · have hasBlock := (on.hasBlock_iff _ _).mp (enough isNames positive)
      rw [Shm.Returns, @findAllocation_missing _ _ ⟨offset, length, name.toCString⟩ notFound
        positive] at finds
      obtain ⟨⟨result, next⟩, allocates, rfl⟩ := Shm.Returns.of_bind_pure finds
      obtain ⟨p, isPage, onMachine, another⟩ :=
        consistent.has_page (on.joined state machine) hasBlock allocates
      obtain ⟨_, completes⟩ :=
        consistent.sound.allocate_returns onMachine isPage hasBlock another name
      obtain ⟨rfl, same⟩ := allocates.unique completes
      obtain ⟨rfl, rfl⟩ := Prod.mk.inj same
      rw [NameMap.after, if_pos ⟨isNames, positive⟩]
      exact @Named.grant _ _ _ ⟨s.block state.mem length, length, name⟩ named _ accounted rfl rfl
        missing
  · obtain ⟨rfl, rfl⟩ := finds.unique
      (consistent.find_existing isListed (g.dram state machine) offset length)
    rw [isListed] at isNames
    rw [NameMap.after, if_neg (by simp [isNames])]
    exact named.same accounted rfl rfl

/-- A free of what the map has returns 0. -/
theorem Named.freed (on : g.On s) (named : Named s (state, names))
    (isNamed : names region.name = some region.block) {stores : List Store} {reply : Reply}
    {page : Option Nat}
    (returns : (serve g.shmem (g.dram state machine) (.free region)).Returns state.mem stores
      (reply, page)) : reply = .freed 0 := by
  obtain ⟨m, pages, headers, live, consistent, recovers, now⟩ := named.accounted
  obtain rfl := now named.alive
  obtain ⟨⟨result, _⟩, frees, same⟩ := Shm.Returns.of_bind_pure returns
  obtain ⟨rfl, rfl⟩ := Prod.mk.inj same
  rw [on.shmem] at frees
  rw [(consistent.free recovers (on.joined state machine) (named.held isNamed).1 frees).1]

theorem Named.step_free (on : g.On s) (named : Named s (state, names))
    (isNamed : names region.name = some region.block)
    (keeps : state.mem.read 8 (peTail g.shmem.objHeaders) =
        state.mem.read 8 (peFirst g.shmem.objHeaders) ∨
      namedAt state.mem region.name.toCString (state.mem.read 8 (peTail g.shmem.objHeaders)) =
        false) {stores : List Store} {reply : Reply} {page : Option Nat}
    (returns : (serve g.shmem (g.dram state machine) (.free region)).Returns state.mem stores
      (reply, page)) :
    Named s (⟨state.mem.apply stores, Function.update state.cur machine page,
      state.ledger.settle (.free region) reply, none⟩, names.after (.free region) reply) := by
  obtain ⟨_, _, _, consistent⟩ := named.consistent
  obtain ⟨isHeld, _⟩ := named.held isNamed
  have careful : Careful g.shmem state.mem (state.cur machine) state.ledger.held (.free region) :=
    isHeld
  have accounted := (named.accounted.call on named.alive (by simp) careful returns).accounted.1
  obtain rfl := named.freed on isNamed returns
  rw [on.shmem] at keeps
  refine named.release accounted rfl rfl isNamed ?_
  by_cases isLast : state.ledger.dir.entries.getLast? = some region
  · exact .inl (consistent.tail_named named.tidy.fresh isLast keeps)
  · exact .inr isLast

/-- Every call. -/
theorem Named.step (on : g.On s) {current next : State × NameMap} (named : Named s current)
    {action : Action} (transition : g.nameStep current action = some next)
    (allowed : g.TailedCalls current action next) : Named s next := by
  obtain ⟨state, names⟩ := current
  obtain ⟨isCall, keeps⟩ := allowed
  cases action with
  | call machine request =>
      obtain ⟨stores, reply, page, admitted, returns, rfl⟩ := nameStep_call transition
      cases request with
      | find offset length name => exact named.step_find on isCall keeps returns
      | free region => exact named.step_free on isCall keeps returns
      | recover =>
          have careful : Careful g.shmem state.mem (state.cur machine) state.ledger.held .recover :=
            trivial
          have heals : Request.heals .recover = true := rfl
          exact named.same
            (named.accounted.call on named.alive (fun _ => isCall) careful returns).accounted.1 rfl
            (state.ledger.settle_of_heals heals reply).1
      | allocate | help => exact isCall.elim
  | crash | write => exact isCall.elim

end Steps

section Runs

variable {g : Setting} {buddySize : Nat} {first : UInt16} {prior : Mem} {current : State × NameMap}

end Runs

end Lupin.Alloc
