import Lupin.Alloc.Allocate

/-!
# The allocator after initialisation

`vcxl_init_meta_impl` leaves a tree in which the virtual slots only are taken, one record page
with all its slots free, and no named object.
-/

namespace Lupin.Alloc

open Lupin.Memory Lupin.HeapIndex Lupin.LevelTree Lupin.Buddy Lupin.Log Lupin.LinkedList

/-! ## The mapping -/

/-- The tree alone makes the metadata larger than `struct meta_shmem` with the fields of
`struct buddy_tree`. -/
theorem metaSizeOf_large (memorySize : Nat) : 656 ≤ Layout.metaSizeOf memorySize := by
  have tree := (Layout.sizeForOrderOffset_bounds
    (buddyTreeOrderForMemory memorySize Layout.buddyAllocAlignment)).2
  unfold Layout.metaSizeOf Layout.sizeofMetaShmem
  omega

section Mapped

variable {memLength buddySize : Nat} {shmem : MetaShmem}

/-- The metadata are put where `metashmem_embed_offset` says, inside the mapping. -/
theorem metaShmemOf_eq_some (accepted : metaShmemOf memLength = some (shmem, buddySize))
    (bound : memLength ≤ 2 ^ 62) :
    ∃ result, Layout.metashmemEmbedOffset (Layout.remaining memLength Layout.totalReserved)
        Layout.buddyAllocAlignment = some result ∧
      shmem.base = Layout.totalReserved + result.offset ∧ shmem.base + 656 ≤ memLength ∧
      metashmemInitAlignment shmem.base Layout.totalReserved result.offset
        Layout.buddyAllocAlignment = some shmem.buddyAlloc := by
  unfold metaShmemOf at accepted
  obtain ⟨result, canFit, accepted⟩ := Option.bind_eq_some_iff.mp accepted
  obtain ⟨base, embeds, accepted⟩ := Option.bind_eq_some_iff.mp accepted
  obtain ⟨b, built, accepted⟩ := Option.bind_eq_some_iff.mp accepted
  obtain ⟨rfl, rfl⟩ := Prod.mk.inj (Option.some.inj accepted)
  have small : memLength < 2 ^ 64 := by omega
  have initialised : Layout.vcxlInitMetaImpl memLength = some base := by
    rw [Layout.vcxlInitMetaImpl, canFit, Option.bind_some, embeds]
  obtain ⟨holds, fits, place⟩ := Layout.vcxlInitMetaImpl_eq_some small initialised
  have large := metaSizeOf_large (memLength - Layout.totalReserved)
  have offset : result.offset = (memLength - Layout.totalReserved -
      Layout.metaSizeOf (memLength - Layout.totalReserved)) / 8 * 8 := by
    rw [Layout.remaining_eq (le_of_add_le_left holds) small,
      Layout.metashmemEmbedOffset_eq (Nat.le_sub_of_add_le' holds)
        (lt_of_le_of_lt (Nat.sub_le _ _) small), if_pos fits] at canFit
    exact (congrArg Layout.BuddyEmbedCheck.offset (Option.some.inj canFit)).symm
  -- the reserved areas are a multiple of the alignment
  have reserved : Layout.totalReserved = 8 * 12288 := rfl
  have start : base = Layout.totalReserved + result.offset := by omega
  exact ⟨result, canFit, start, by dsimp only; omega, built⟩

/-- What `vcxl_init_meta_impl` sets up is a mapping. -/
theorem exists_mapping (accepted : metaShmemOf memLength = some (shmem, buddySize))
    (bound : memLength ≤ 2 ^ 62) : ∃ s : Mapping, s.shmem = shmem ∧ s.memLength = memLength := by
  obtain ⟨base, b⟩ := shmem
  obtain ⟨result, _, start, inside, built⟩ := metaShmemOf_eq_some accepted bound
  dsimp only at start inside built
  obtain ⟨arena, rfl⟩ := exists_arena built (by omega)
  obtain ⟨_, _, main, size, alignment, _, bits⟩ := metashmemInitAlignment_eq_some built
  exact ⟨{
    arena, base, memLength
    main_eq := main
    alignment_eq := alignment
    arena_end := by omega
    bits_eq := bits
    base_lt := inside
    memLength_le := bound }, rfl, rfl⟩

/-- Arena, bitset and table of the mapping are where the layout has them. -/
theorem embedded_of_accepted (accepted : metaShmemOf memLength = some (shmem, buddySize))
    (bound : memLength ≤ 2 ^ 62) :
    ∃ result, Layout.metashmemEmbedOffset (Layout.remaining memLength Layout.totalReserved)
        Layout.buddyAllocAlignment = some result ∧
      Layout.embedded result = shmem.buddyAlloc.parts shmem.base := by
  obtain ⟨result, canFit, start, _, built⟩ := metaShmemOf_eq_some accepted bound
  rw [start] at built ⊢
  exact ⟨result, canFit, embedded_eq_parts built⟩

end Mapped

/-! ## The first state -/

/-- The stores of the initialisation behind the tree's. -/
def queueStores (s : Mapping) : List Store :=
  [Mem.scalar 8 (peFirst s.shmem.objHeaders) 0, Mem.scalar 8 (peTail s.shmem.objHeaders) 0] ++
    (Mem.copy s.shmem.redolog (List.replicate (sizeofLogEntry * redologEntries) 0) ++
      [Mem.scalar 8 (peFirst s.shmem.objAllocs) firstRecords,
        Mem.scalar 8 (peTail s.shmem.objAllocs) firstRecords])

theorem queueStores_within (s : Mapping) :
    ∀ t ∈ queueStores s, t.Within s.base (s.base + 592) := by
  simp only [queueStores, List.forall_mem_append, List.forall_mem_cons, Mem.scalar_within,
    s.objHeaders_eq, s.objAllocs_eq, peFirst, peTail]
  refine ⟨⟨by omega, by omega, fun _ none => absurd none List.not_mem_nil⟩, fun t member => ?_,
    by omega, by omega, fun _ none => absurd none List.not_mem_nil⟩
  refine (Mem.copy_within member).mono (Nat.le_refl _) ?_
  rw [List.length_replicate, s.redolog_eq]
  exact Nat.add_le_add_left (by decide) _

/-- The queues after the initialisation: one page, no header. -/
theorem queueStores_reads (s : Mapping) (m : Mem) :
    let m' := m.apply (queueStores s)
    m'.read 8 (peFirst s.shmem.objHeaders) = 0 ∧
      m'.read 8 (peFirst s.shmem.objAllocs) = firstRecords ∧
      m'.read 8 (peTail s.shmem.objAllocs) = firstRecords := by
  have log : ∀ t ∈ Mem.copy s.shmem.redolog (List.replicate (sizeofLogEntry * redologEntries) 0),
      t.Within s.base (s.base + 560) := by
    intro t member
    refine (Mem.copy_within member).mono (Nat.le_refl _) ?_
    rw [List.length_replicate, s.redolog_eq]
    exact Nat.add_le_add_left (by decide) _
  have apart : ∀ {m' : Mem} {a b value : Nat}, a + 8 ≤ b ∨ b + 8 ≤ a →
      (m'.store (Mem.scalar 8 b value)).read 8 a = m'.read 8 a := fun sides =>
    Mem.read_store_of_disjoint (by simpa [Mem.scalar] using sides)
  simp only [queueStores, Mem.apply_append, Mem.apply_cons, Mem.apply_nil, s.objHeaders_eq,
    s.objAllocs_eq, peFirst, peTail]
  refine ⟨?_, ?_, Mem.read_store_self _ 8 _ _⟩
  · rw [apart (by omega), apart (by omega), Mem.read_apply_of_within _ log (by omega),
      apart (by omega), Mem.read_store_self, Nat.zero_mod]
  · rw [apart (by omega)]
    exact Mem.read_store_self _ 8 _ _

/-- The log after the initialisation. -/
theorem queueStores_log (s : Mapping) (m : Mem) {a : Nat} (low : s.base ≤ a)
    (high : a < s.base + 560) : m.apply (queueStores s) a = 0 := by
  have size : sizeofLogEntry * redologEntries = 560 := rfl
  have behind : ∀ t ∈ [Mem.scalar 8 (peFirst s.shmem.objAllocs) firstRecords,
      Mem.scalar 8 (peTail s.shmem.objAllocs) firstRecords], ¬ t.Covers a := by
    simp only [List.forall_mem_cons, List.not_mem_nil, IsEmpty.forall_iff, implies_true, and_true,
      Mem.scalar_covers, s.objAllocs_eq, peFirst, peTail]
    omega
  rw [queueStores, Mem.apply_append, Mem.apply_append, Mem.apply_of_not_covers behind,
    Mem.apply_copy, size, s.redolog_eq]
  have inside : a - s.base < 560 := by omega
  rw [Mem.store, if_pos low, List.getElem?_replicate, if_pos inside, Option.getD_some]

/-- The initialisation completes and leaves a sound state with one page whose slots are free,
nothing allocated and an empty log. -/
theorem sound_of_init (s : Mapping) (buddySize : Nat) (prior : Mem) :
    ∃ stores, (vcxlInitMeta s.shmem buddySize).Returns prior stores () ∧
      Sound s (prior.apply stores) [firstRecords] [] [] ∧
      (∀ a, s.base ≤ a → a < s.base + 560 → prior.apply stores a = 0) ∧
      (prior.apply stores).read 2 (availableSlotsAddr firstRecords) = numObjSlots := by
  have low := s.base_low
  have bits := s.bits_eq
  have first : firstRecords = 20480 := rfl
  let records := prior.apply (initObjAllocationRecords firstRecords)
  let cleared := records.apply (Mem.copy s.base (List.replicate buddySize 0))
  obtain ⟨toggles, virtualSlots, toggled, represents, frame, atEnd⟩ :=
    buddyToggleVirtualSlots_spec (buddyTreeInit_spec s.arena.tree cleared)
  let tree := cleared.apply (clearedBits s.arena.tree :: toggles)
  have built :
      (setUp s.shmem.buddyAlloc).Returns cleared (clearedBits s.arena.tree :: toggles) () := by
    unfold setUp buddyTreeInit
    exact Shm.Returns.put_bind toggled
  have behindTree :
      ∀ a, s.base + 592 ≤ a → (tree.apply (queueStores s)) a = tree a := fun a above =>
    Mem.apply_of_not_covers
      (fun t member => (queueStores_within s t member).not_covers (.inr above)) tree
  have kept : ∀ a, a < s.base → (tree.apply (queueStores s)) a = records a := by
    intro a below
    have fromQueues : (tree.apply (queueStores s)) a = tree a := Mem.apply_of_not_covers
      (fun t member => (queueStores_within s t member).not_covers (.inl below)) tree
    have fromTree : tree a = cleared a := by
      refine (frame.before a (by omega)).trans (Mem.store_of_not_covers fun inside => ?_)
      have := inside.1
      simp only [clearedBits] at this
      omega
    have fromClear : cleared a = records a := Mem.apply_of_not_covers
      (fun t member => (Mem.copy_within member).not_covers (.inl below)) records
    rw [fromQueues, fromTree, fromClear]
  refine ⟨initObjAllocationRecords firstRecords ++ (Mem.copy s.base (List.replicate buddySize 0) ++
    ((clearedBits s.arena.tree :: toggles) ++ queueStores s)), ?_, ?_⟩
  · refine Shm.Returns.putAll_bind (Shm.Returns.putAll_bind (built.bind ?_))
    exact Shm.Returns.putAll_bind (Shm.Returns.putAll_bind (Shm.Returns.putAll _ _))
  · simp only [Mem.apply_append]
    obtain ⟨noHeader, firstPage, lastPage⟩ := queueStores_reads s tree
    obtain ⟨next, available, clear⟩ := initObjAllocationRecords_reads prior firstRecords
    have readKept : ∀ {n a : Nat}, a + n ≤ s.base →
        (tree.apply (queueStores s)).read n a = records.read n a := fun below =>
      Mem.read_congr fun b _ above => kept b (by omega)
    have noneListed : ∀ {property : Nat → Prop}, ∀ h ∈ ([] : List Nat), property h :=
      fun h listed => absurd listed List.not_mem_nil
    have invariant : AllocInvariant s.arena virtualSlots ⟨tree, []⟩ virtualSlots :=
      ⟨represents, fun i => by simp, fun _ live => absurd live List.not_mem_nil, List.nodup_nil⟩
    have pagesAt : PagesAt s [firstRecords] := by
      refine ⟨fun p isFirst => ?_, List.pairwise_singleton _ _⟩
      obtain rfl := List.mem_singleton.mp isFirst
      unfold sizeofRecords
      omega
    have lists : Lists s (tree.apply (queueStores s)) [firstRecords] [] := by
      refine ⟨pagesAt, rfl, ⟨firstPage, ⟨fun _ => 0, rfl, ?_, trivial⟩, lastPage⟩,
        ⟨noHeader, trivial, noneListed, noneListed, .nil, noneListed⟩, noneListed⟩
      exact (readKept (by unfold leNextOptr; omega)).trans next
    refine ⟨⟨⟨lists, fun p isFirst => ⟨fun i _ listed => absurd listed List.not_mem_nil, ?_⟩,
      fun some => absurd rfl some, fun some => absurd rfl some⟩,
      ⟨virtualSlots, virtualSlots, atEnd, invariant.congr fun a above => behindTree a (by omega)⟩,
      fun p isFirst notFirst => absurd (List.mem_singleton.mp isFirst) notFirst⟩,
      fun a low high => queueStores_log s tree low high,
      (readKept (by unfold availableSlotsAddr; omega)).trans available⟩
    obtain rfl := List.mem_singleton.mp isFirst
    have bitClear : ∀ k, k < numObjSlots →
        bit (tree.apply (queueStores s)) (objAllocBitset firstRecords) k = false := by
      intro k below
      unfold numObjSlots at below
      refine (bit_congr (kept _ ?_)).trans (clear k (by unfold sizeofObjBitset; omega))
      unfold objAllocBitset
      omega
    rw [countBits_of_all_clear fun j below => bitClear _ (by omega),
      readKept (by unfold availableSlotsAddr; omega), available, Nat.add_zero]

end Lupin.Alloc
