import Lupin.Alloc.Names

/-!
# Runs of completed calls

Machines call `atomic_allocate_memory`, `find_allocation` and `atomic_free_memory` one at a time,
no machine dies, and every call returns. A call that takes a record page as well as a block looks
for both in the same tree. As long as the two are apart, the blocks of all objects and pages are,
and memory that has run out is refused by `atomic_allocate_memory`. `find_allocation` does not look
at the refusal, and a machine that joins while all pages are full has no page to allocate from.
-/

namespace Lupin.Alloc

open Lupin.Memory Lupin.HeapIndex Lupin.LevelTree Lupin.Buddy Lupin.Log Lupin.LinkedList
  Lupin.Transition

/-- Calls of clients, who free objects they hold, and of machines that join where `recover_meta`
comes to the metadata. -/
def Setting.Calls (g : Setting) : Guard State Action := fun state action _ =>
  match action with
  | .call _ (.allocate _ _) | .call _ (.find _ _ _) => True
  | .call _ (.free region) => region ∈ state.ledger.held
  | .call _ .recover => g.Located
  | _ => False

/-- A page that a call takes with a block is apart from it. -/
def Setting.TakesApart (g : Setting) : Guard State Action := fun state action _ =>
  match action with
  | .call machine request =>
      Careful g.shmem state.mem (state.cur machine) state.ledger.held request
  | _ => True

def Setting.ApartCalls (g : Setting) : Guard State Action := fun state action next =>
  g.Calls state action next ∧ g.TakesApart state action next

/-- A record page on the list. -/
def Setting.OnPages (g : Setting) (m : Mem) (page : Nat) : Prop :=
  walkQueue m (· == page) g.shmem.objAllocs = some (some page)

section Runs

variable {g : Setting} {buddySize : Nat} {first : UInt16} {prior : Mem} {state : State}

theorem accounted_of_calls {s : Mapping} (on : g.On s)
    (reached : (g.machine buddySize first prior).Reachable g.ApartCalls state) :
    Accounted s state ∧ state.dead = none := by
  induction reached with
  | initial =>
      obtain ⟨_, initial, _⟩ := on.initial buddySize first prior
      exact ⟨accounted_initial on buddySize first prior, by rw [initial]⟩
  | @step _ _ action _ transition guarded inductionHypothesis =>
      obtain ⟨isCall, careful⟩ := guarded
      cases action with
      | call machine request =>
          obtain ⟨_, _, _, _, _, after⟩ := returns_of_step transition
          refine ⟨(inductionHypothesis.1.step_call on (fun joins => ?_) transition careful).1,
            by rw [after]⟩
          subst joins
          exact isCall
      | crash | write => exact isCall.elim

/-- Every state of such a run is consistent, with the lock free. -/
theorem consistent_of_calls {s : Mapping} (on : g.On s)
    (reached : (g.machine buddySize first prior).Reachable g.ApartCalls state) :
    state.dead = none ∧ ∃ pages headers live,
      Consistent s state.mem state.cur state.ledger pages headers live ∧
      Recovers s pages (heldArea state.ledger.held) state.mem state.mem := by
  obtain ⟨⟨m, pages, headers, live, consistent, recovers, now⟩, alive⟩ :=
    accounted_of_calls on reached
  obtain rfl := now alive
  exact ⟨alive, pages, headers, live, consistent, recovers⟩

theorem Setting.On.onPages_iff {s : Mapping} (on : g.On s) {m : Mem} {pages headers : List Nat}
    (shape : Shape s m pages headers) (page : Nat) : g.OnPages m page ↔ page ∈ pages := by
  rw [Setting.OnPages, on.shmem, shape.pages_walkQueue_eq, Option.some.injEq]
  constructor
  · exact List.mem_of_find?_eq_some
  · intro isPage
    obtain ⟨found, isFound⟩ : ∃ found, pages.find? (· == page) = some found :=
      Option.isSome_iff_exists.mp (List.find?_isSome.mpr ⟨page, isPage, beq_self_eq_true page⟩)
    have same := List.find?_some isFound
    rw [isFound, eq_of_beq same]

end Runs

/-! ## Blocks -/

/-- The blocks of the objects and of the record pages that come from the arena are pairwise apart
and lie inside it. -/
def Setting.BlocksApart (g : Setting) (state : State) : Prop :=
  ∃ pages : List Nat, pages.Nodup ∧
    (∀ page, page ∈ pages ↔ g.OnPages state.mem page ∧ page ≠ firstRecords) ∧
    ((state.ledger.held.map Object.block ++ pages.map (·, sizeofRecords)).Pairwise fun x y =>
      Apart x.1 (blockSize g.shmem.buddyAlloc x.2) y.1 (blockSize g.shmem.buddyAlloc y.2)) ∧
    ∀ block ∈ state.ledger.held.map Object.block ++ pages.map (·, sizeofRecords),
      g.shmem.buddyAlloc.main ≤ block.1 ∧ block.1 + blockSize g.shmem.buddyAlloc block.2 ≤
        g.shmem.buddyAlloc.main + g.shmem.buddyAlloc.memorySize

section Blocks

variable {g : Setting} {buddySize : Nat} {first : UInt16} {prior : Mem} {state : State}

/-- In every state that is reached by completed calls, as long as no call takes a block and a record
page that overlap: the blocks of the objects and of the pages are apart, inside the arena. -/
theorem live_blocks_apart
    (accepted : metaShmemOf g.memLength = some (g.shmem, buddySize)) (bound : g.memLength ≤ 2 ^ 62)
    (reached : (g.machine buddySize first prior).Reachable g.ApartCalls state) :
    g.BlocksApart state := by
  obtain ⟨s, shmem, memLength⟩ := exists_mapping accepted bound
  have on : g.On s := ⟨shmem.symm, memLength.symm⟩
  obtain ⟨_, pages, _, _, consistent, _⟩ := consistent_of_calls on reached
  obtain ⟨_, _, atEnd, invariant⟩ := consistent.sound.tree
  have arena : g.shmem.buddyAlloc = s.arena.toBuddyAlloc := by rw [on.shmem, s.buddyAlloc_eq]
  have taken : (state.ledger.held.map Object.block ++ pageBlocks pages).Sublist
      (state.ledger.blocks pages) := by
    rw [Ledger.blocks, ← List.append_assoc]
    exact List.sublist_append_left _ _
  have distinct : pages.Nodup := consistent.sound.shape.pagesAt.apart.imp fun apart same => by
    unfold PagesApart sizeofRecords at apart
    omega
  refine ⟨pages.filter (· ≠ firstRecords), distinct.filter _, fun page => ?_, ?_,
    fun block isBlock => ?_⟩
  · rw [on.onPages_iff consistent.sound.shape, List.mem_filter]
    simp
  · rw [arena]
    exact consistent.pairwise.sublist taken
  · have isLive := consistent.blocks.subset (taken.subset isBlock)
    have inside := invariant.inside atEnd isLive
    rw [arena]
    exact ⟨(invariant.live _ isLive).1.aligned.1, inside⟩

theorem requests_apartCalls (g : Setting) (first : UInt16) (length : Nat) (names : List ProgId) :
    g.Requests first length names g.ApartCalls := fun _ _ _ _ _ _ _ allowed => ⟨trivial, allowed⟩

/-- Two objects. -/
theorem live_blocks_apart_two : ∃ state, state.ledger.held.length = 2 ∧
    smallSetting.BlocksApart state := by
  obtain ⟨_, state, _, reached, _, named⟩ := smallSetting_filled_of
    (requests_apartCalls _ _ _ [sampleName, secondName]) (by decide)
  have lengths := congrArg List.length named
  rw [List.length_map] at lengths
  exact ⟨state, lengths, live_blocks_apart smallSetting_accepted (by decide) reached⟩

/-- Names of their own for many objects. -/
def numberedName (i : Nat) : ProgId where
  chars := [.ofNat 8 (i / 200 % 200 + 1), .ofNat 8 (i % 200 + 1)]
  nonzero := by
    have small : ∀ n, BitVec.ofNat 8 (n % 200 + 1) ≠ 0 := fun n zero => by
      have isZero : (n % 200 + 1) % 256 = 0 := congrArg BitVec.toNat zero
      omega
    simpa using ⟨small _, small _⟩
  short := (by decide : 2 < progIdSize)

theorem numberedName_inj {i j : Nat} (iBound : i < 40000) (jBound : j < 40000)
    (same : numberedName i = numberedName j) : i = j := by
  have both := congrArg (fun name : ProgId => name.chars.map BitVec.toNat) same
  simp only [numberedName, List.map_cons, List.map_nil, BitVec.toNat_ofNat, List.cons.injEq] at both
  omega

def numberedNames (count : Nat) : List ProgId := (List.range count).map numberedName

theorem nodup_numberedNames {count : Nat} (bound : count ≤ 40000) : (numberedNames count).Nodup :=
  List.nodup_range.map_on fun _ inRange _ inRange' same =>
    numberedName_inj ((List.mem_range.mp inRange).trans_le bound)
      ((List.mem_range.mp inRange').trans_le bound) same

theorem length_numberedNames (count : Nat) : (numberedNames count).length = count := by
  rw [numberedNames, List.length_map, List.length_range]

theorem calls_of_requests (g : Setting) {first : UInt16} {length : Nat} {names : List ProgId} :
    ∀ action ∈ requests first length names, ∀ state next, g.Calls state action next := by
  intro action isRequest _ _
  obtain ⟨_, _, rfl⟩ := List.mem_map.mp isRequest
  trivial

/-- With the record page full after 340 objects, the next object of the size class of a page gets
the block of the next page. -/
theorem record_page_over_object : ∃ names : List ProgId, names.Nodup ∧ names.length = 341 ∧
    ∃ state, (wideSetting.machine 1800 1 fun _ => 0).runFrom
        (wideSetting.machine 1800 1 fun _ => 0).initial (requests 1 16384 names) = some state ∧
      (wideSetting.machine 1800 1 fun _ => 0).Reachable wideSetting.Calls state ∧
      ¬ wideSetting.BlocksApart state := by
  obtain ⟨s, state, on, ran, _, filled, full, hasBlock⟩ :=
    wideSetting_full (requests_apartCalls _ _ _ _) (length_numberedNames numObjSlots)
  obtain ⟨headers, live, consistent⟩ := filled.consistent
  have hasBlock' := (on.hasBlock_iff _ _).mp hasBlock
  obtain ⟨_, fits, _⟩ := consistent.sound.found hasBlock'
  have arena : wideSetting.shmem.buddyAlloc = s.arena.toBuddyAlloc := by
    rw [on.shmem, s.buddyAlloc_eq]
  have samePos : s.pos state.mem 16384 = s.pos state.mem sizeofRecords :=
    buddyMallocFindPos_of_sizeClass (by decide) (by decide) fits (by rw [← arena]; decide)
      (by rw [← arena]; rfl) state.mem
  obtain ⟨stores, returns, placed⟩ := consistent.collides (on.joined state 1) filled.isCur full
    samePos hasBlock' (numberedName numObjSlots)
  rw [← on.shmem] at returns
  obtain ⟨next, headers', last, held, shape⟩ : ∃ next headers',
      wideSetting.step state (.call 1 (.allocate 16384 (numberedName numObjSlots))) = some next ∧
      ⟨s.block state.mem 16384, 16384, numberedName numObjSlots⟩ ∈ next.ledger.held ∧
      Shape s next.mem ([firstRecords] ++ [s.block state.mem 16384]) headers' :=
    ⟨_, _, step_allocate filled.alive returns, List.mem_cons_self, placed.shape⟩
  have whole : (wideSetting.machine 1800 1 fun _ => 0).runFrom
      (wideSetting.machine 1800 1 fun _ => 0).initial (requests 1 16384 (numberedNames 341)) =
        some next := by
    have isNames : numberedNames 341 =
        numberedNames numObjSlots ++ [numberedName numObjSlots] := by
      rw [numberedNames, numObjSlots, List.range_succ, List.map_append]
      rfl
    rw [isNames, requests, List.map_append]
    exact (Machine.runFrom_concat ran _).trans last
  refine ⟨numberedNames 341, nodup_numberedNames (by decide), length_numberedNames 341, next, whole,
    Machine.Reachable.runFrom .initial (calls_of_requests _) whole, ?_⟩
  rintro ⟨pages, _, isPages, apart, _⟩
  have isPage : s.block state.mem 16384 ∈ pages := by
    refine (isPages _).mpr ⟨(on.onPages_iff shape _).mpr (by simp), fun isFirst => ?_⟩
    obtain ⟨_, _, low, _⟩ := consistent.sound.found hasBlock'
    have main : s.arena.main = 98304 := s.main_eq
    have first : firstRecords = 20480 := rfl
    omega
  have meet := (List.pairwise_append.mp apart).2.2 _ (List.mem_map_of_mem held) _
    (List.mem_map_of_mem isPage)
  have size : blockSize wideSetting.shmem.buddyAlloc 16384 = 16384 := by decide
  have size' : blockSize wideSetting.shmem.buddyAlloc sizeofRecords = 16384 := by decide
  dsimp only [Object.block] at meet
  rw [size, size'] at meet
  unfold Apart at meet
  omega

end Blocks

/-! ## Machines that join -/

section Joining

variable {s : Mapping} {g : Setting} {buddySize : Nat} {first machine : UInt16} {prior : Mem}
  {state : State} {m : Mem} {pages headers : List Nat} {live : List (Nat × Nat)} {d : MetaDram}

end Joining

/-! ## Memory that has run out -/

section OutOfMemory

variable {s : Mapping} {g : Setting} {buddySize : Nat} {first machine : UInt16} {prior : Mem}
  {state : State} {length : Nat} {name : ProgId}

end OutOfMemory

end Lupin.Alloc
