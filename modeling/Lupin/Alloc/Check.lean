import Lupin.Alloc.Calls

/-!
# The allocation checker

`check_allocation` looks an object up by name and compares everything that is recorded about it:
the slot map of its page, the header and the node of its block. It counts the bits of the slot map
from 0 to `SIZEOF_OBJ_BITSET`, which is the number of its bytes.
-/

namespace Lupin.Alloc

open Lupin.Memory Lupin.HeapIndex Lupin.LevelTree Lupin.Buddy Lupin.Log Lupin.LinkedList
  Lupin.Transition

/-- What `check_allocation` has to find of an object whose header is in this slot. -/
structure Recorded (s : Mapping) (d : MetaDram) (m : Mem) (object : Object) (p slot : Nat) :
    Prop where
  small : p < 2 ^ 64
  bound : slot < numObjSlots
  slotId : m.read 2 (slotIdAddr (objHeader p slot)) = slot
  used : bit m (objAllocBitset p) slot = true
  machineId : m.read 2 (machineIdAddr (objHeader p slot)) = d.machineId
  objectAt : ObjectAt m (objHeader p slot) object
  status : buddyTreeStatus s.arena.tree m
      (buddyFreeFindPos s.arena.toBuddyAlloc m object.offset object.length) =
    (buddyTreeInternalPositionTree s.arena.tree
      (buddyFreeFindPos s.arena.toBuddyAlloc m object.offset object.length)).localOffset

section Recorded

variable {s : Mapping} {d : MetaDram} {m : Mem} {object : Object} {p slot : Nat}

/-- The node of a live block is full. -/
theorem status_of_live {a : Arena} {virtualSlots blocks : BlockSet a.tree.order}
    {state : AllocState}
    (invariant : AllocInvariant a virtualSlots state blocks)
    (atEnd : CoversFrom virtualSlots (2 ^ (a.tree.order - 1) + a.blocks)) {block : Nat × Nat}
    (isLive : block ∈ state.live) :
    buddyTreeStatus a.tree state.mem
        (buddyFreeFindPos a.toBuddyAlloc state.mem block.1 block.2) =
      (buddyTreeInternalPositionTree a.tree
        (buddyFreeFindPos a.toBuddyAlloc state.mem block.1 block.2)).localOffset := by
  obtain ⟨node, _, at_, position, _⟩ := invariant.release atEnd isLive
  have isTaken := invariant.taken isLive
  rw [at_.blockNode_eq] at isTaken
  have represents := invariant.represents node at_.node
  rw [level_of_taken isTaken] at represents
  rw [position, buddyTreeStatus, buddyTreeInternalPositionTree_posOf at_.node]
  exact represents.read_eq at_.node le_rfl

/-- An object that is found by its name is recorded. -/
theorem Consistent.recorded {cur : UInt16 → Option Nat} {ledger : Ledger}
    {pages headers : List Nat} {live : List (Nat × Nat)}
    (consistent : Consistent s m cur ledger pages headers live) (isHeld : object ∈ ledger.held)
    (isListed : ledger.dir.lookup object.name = some object)
    (ids : ∀ h ∈ headers, m.read 2 (machineIdAddr h) = d.machineId) :
    ∃ p ∈ pages, ∃ slot, Recorded s d m object p slot ∧
      headers.find? (namedAt m object.name.toCString) = some (objHeader p slot) := by
  have shape := consistent.sound.shape
  rcases find_split consistent.directory.entries object.name with ⟨_, others⟩ |
    ⟨_, h, _, _, object', _, _, split, _, here, _, others, named, found⟩
  · exact absurd (isListed.symm.trans (Directory.lookup_none others)) (by simp)
  obtain rfl := Option.some.inj (isListed.symm.trans (Directory.lookup_some split others named))
  have listed := List.mem_of_find?_eq_some found
  obtain ⟨p, isPage, slot, bound, rfl, slotId⟩ := shape.filled h listed
  obtain ⟨_, _, atEnd, invariant⟩ := consistent.sound.tree
  have high := s.base_high
  have inside := shape.pagesAt.bounds isPage
  have used := (shape.maps p isPage).used slot bound listed
  have status := status_of_live invariant atEnd (consistent.isLive isHeld)
  dsimp only [Object.block] at status
  exact ⟨p, isPage, slot, ⟨by omega, bound, slotId, used, ids _ listed, here, status⟩, found⟩

end Recorded

/-! ## Runs of one machine -/

/-- One machine allocates, each object under a name of its own. -/
def OwnCalls (first : UInt16) : Guard State Action := fun state action _ =>
  match action with
  | .call machine (.allocate _ name) =>
      machine = first ∧ ∀ object ∈ state.ledger.held, object.name ≠ name
  | _ => False

/-- In addition a page that is taken with an object is apart from it. -/
def Setting.OwnAllocations (g : Setting) (first : UInt16) : Guard State Action :=
  fun state action next => OwnCalls first state action next ∧ g.TakesApart state action next

/-- Every header on the list is of this machine. -/
structure OwnRecords (s : Mapping) (first : UInt16) (state : State) : Prop where
  alive : state.dead = none
  dir : state.ledger.dir = ⟨state.ledger.held.reverse, false⟩
  names : (state.ledger.held.map Object.name).Nodup
  consistent : ∃ pages headers live,
    Consistent s state.mem state.cur state.ledger pages headers live ∧
      ∀ h ∈ headers, state.mem.read 2 (machineIdAddr h) = first.toNat

section OwnRecords

variable {s : Mapping} {g : Setting} {first : UInt16} {state next : State}

theorem OwnRecords.tidy (own : OwnRecords s first state) : state.ledger.Tidy := by
  refine ⟨?_, ?_, ?_⟩ <;> rw [own.dir]
  · rw [List.map_reverse, List.nodup_reverse]
    exact own.names
  · exact fun _ isHeld => List.mem_reverse.mpr isHeld

theorem OwnRecords.grant (own : OwnRecords s first state) (on : g.On s) {length : Nat}
    {name : ProgId} (fresh : ∀ object ∈ state.ledger.held, object.name ≠ name)
    (apart : PageApart g.shmem.buddyAlloc state.mem (state.cur first) length)
    (hasBlock : s.HasBlock state.mem length) {stores : List Store} {result : Except Int Nat}
    {page : Option Nat}
    (returns : (atomicAllocateMemoryLockheld g.shmem (g.dram state first) length
      name.toCString).Returns state.mem stores (result, page)) :
    OwnRecords s first ⟨state.mem.apply stores, Function.update state.cur first page,
      state.ledger.settle (.allocate length name) (.allocated result), none⟩ := by
  obtain ⟨pages, headers, live, consistent, ids⟩ := own.consistent
  rw [on.shmem] at returns apart
  have joined := on.joined state first
  obtain ⟨p, isPage, onMachine, another⟩ := consistent.has_page joined hasBlock returns
  have isCur := onMachine.curObjRecs
  obtain ⟨_, completes, placed, after⟩ := consistent.allocated joined isCur
    ⟨hasBlock, another, fun full => apart p isCur full⟩ name
  obtain ⟨rfl, same⟩ := returns.unique completes
  obtain ⟨rfl, rfl⟩ := Prod.mk.inj same
  refine ⟨rfl, ?_, ?_, _, _, _, after, fun h listed => ?_⟩
  · change state.ledger.dir.insert _ = ⟨(_ :: state.ledger.held).reverse, false⟩
    rw [own.dir, Directory.insert, if_neg (by simp), List.reverse_cons]
  · refine List.nodup_cons.mpr ⟨fun taken => ?_, own.names⟩
    obtain ⟨object, isHeld, isName⟩ := List.mem_map.mp taken
    exact fresh object isHeld isName
  · by_cases isNew : h = newHeader s state.mem p
    · rw [isNew]
      exact placed.machineId
    · have wasListed : h ∈ headers := by
        unfold appendBehind at listed
        split at listed
        · exact (List.mem_append.mp listed).resolve_right fun last =>
            isNew (List.mem_singleton.mp last)
        · exact listed
      rw [← ids h wasListed]
      refine Mem.read_congr fun a low high => ?_
      unfold machineIdAddr at low high
      exact placed.others h (consistent.sound.shape.inPage wasListed) isNew a (by omega) (by omega)

theorem OwnRecords.step (on : g.On s) (own : OwnRecords s first state) {action : Action}
    (transition : g.step state action = some next)
    (allowed : g.OwnAllocations first state action next) : OwnRecords s first next := by
  obtain ⟨isOwn, careful⟩ := allowed
  cases action with
  | call machine request =>
      cases request with
      | allocate length name =>
          obtain ⟨rfl, fresh⟩ := isOwn
          obtain ⟨stores, reply, page, _, returns, rfl⟩ := returns_of_step transition
          obtain ⟨⟨result, _⟩, allocates, same⟩ := Shm.Returns.of_bind_pure returns
          obtain ⟨rfl, rfl⟩ := Prod.mk.inj same
          by_cases hasBlock : s.HasBlock state.mem length
          · exact own.grant on fresh careful hasBlock allocates
          · rw [on.shmem] at allocates
            obtain ⟨rfl, same⟩ := allocates.unique (allocate_refused hasBlock _ name.toCString)
            obtain ⟨rfl, rfl⟩ := Prod.mk.inj same
            change OwnRecords s machine
              ⟨state.mem, Function.update state.cur machine (state.cur machine), state.ledger, none⟩
            rw [Function.update_eq_self]
            exact ⟨rfl, own.dir, own.names, own.consistent⟩
      | find | free | recover | help => exact isOwn.elim
  | crash | write => exact isOwn.elim

variable {buddySize : Nat} {prior : Mem}

end OwnRecords

end Lupin.Alloc
