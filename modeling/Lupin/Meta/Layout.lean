import Lupin.Buddy.Size

/-!
# Where the metadata lives in the mapping

`vcxl_init_meta_impl` reserves an area at the start of the mapping, gives the
rest to `metashmem_embed_alignment`, which puts `struct meta_shmem` and the buddy
tree at its end; `recover_meta` computes the place again. Addresses are offsets
from `mem_start`, which is page aligned.

`recover_meta` leaves `CXLCG_META_SIZE` out of the reserved area. The place is
counted from the end of the mapping, so this only shows through the order of the
buddy tree, which each of the two computes from its own size.
-/

namespace Lupin.Layout

open Lupin.Buddy

def futexAddrQueueSize : Nat := 20480
def objAllocRecsSize : Nat := 16384
def procDeathNotificationSize : Nat := 20480
def cxlcgMetaSize : Nat := 40960

/-- `BUDDY_ALLOC_ALIGNMENT`. -/
def buddyAllocAlignment : Nat := 4096

/-- `sizeof(struct meta_shmem)`. -/
def sizeofMetaShmem : Nat := 632

/-- `BUDDY_ALIGNOF(struct meta_shmem)`. -/
def alignofMetaShmem : Nat := 8

/-- `total_reserved` in `vcxl_init_meta_impl`. -/
def totalReserved : Nat :=
  futexAddrQueueSize + objAllocRecsSize + procDeathNotificationSize + cxlcgMetaSize

/-- `total_reserved` in `recover_meta`. -/
def totalReservedRecover : Nat :=
  futexAddrQueueSize + objAllocRecsSize + procDeathNotificationSize

/-- `metashmem_sizeof_alignment`, 0 for arguments it refuses. -/
def metashmemSizeofAlignment (memorySize alignment : Nat) : Nat :=
  if isValidAlignment alignment = false then 0
  else if memorySize < alignment then 0
  else sizeofMetaShmem + buddyTreeSizeof (buddyTreeOrderForMemory memorySize alignment % 256)

/-- The fields `struct buddy_embed_check` has when `can_fit` is set. -/
structure BuddyEmbedCheck where
  offset : Nat
  buddySize : Nat
deriving DecidableEq

/-- `metashmem_embed_offset`; `none` is `can_fit == 0`. -/
def metashmemEmbedOffset (memorySize alignment : Nat) : Option BuddyEmbedCheck :=
  let metaSize := metashmemSizeofAlignment memorySize alignment
  if metaSize ≥ memorySize ∨ metaSize = 0 then none
  else
    let offset := memorySize - metaSize
    if offset % alignofMetaShmem ≠ 0 then
      let metaSize := metaSize + offset % alignofMetaShmem
      if metaSize ≥ memorySize then none
      else some ⟨memorySize - metaSize, metaSize⟩
    else some ⟨offset, metaSize⟩

/-- The checks of `metashmem_init_alignment` on the place of the metadata, the
start of the arena and its size; `at` and `main` are not `NULL` here. -/
def metashmemInitAccepts (at_ main memorySize alignment : Nat) : Bool :=
  at_ != main && isValidAlignment alignment && at_ % alignofMetaShmem == 0 && main % 8 == 0 &&
    decide (alignment ≤ memorySize - memorySize % alignment)

/-- The subtraction of the reserved area in `size_t`. -/
def remaining (memLength reserved : Nat) : Nat := (memLength + 2 ^ 64 - reserved) % 2 ^ 64

/-- `metashmem_embed_alignment` once it has a place. It clears the metadata
first, which faults outside the mapping. -/
def embedAt (memLength : Nat) (result : BuddyEmbedCheck) : Option Nat :=
  let metaStart := (totalReserved + result.offset) % 2 ^ 64
  if metaStart + result.buddySize > memLength then none
  else if metashmemInitAccepts metaStart totalReserved result.offset buddyAllocAlignment then
    some metaStart
  else none

/-- The offset of `struct meta_shmem` that `vcxl_init_meta_impl` returns. `none`
is a run that does not succeed: it faults, or dereferences the `NULL` that
`metashmem_embed_alignment` refuses with. -/
def vcxlInitMetaImpl (memLength : Nat) : Option Nat :=
  (metashmemEmbedOffset (remaining memLength totalReserved) buddyAllocAlignment).bind
    (embedAt memLength)

/-- The offset of `struct meta_shmem` that `recover_meta` computes, `none` where it
returns `-EFAULT`. -/
def recoverMetaAddress (memLength : Nat) : Option Nat :=
  (metashmemEmbedOffset (remaining memLength totalReservedRecover) buddyAllocAlignment).map
    fun result => (totalReservedRecover + result.offset) % 2 ^ 64

/-! ## The place of the metadata -/

/-- The bytes of the metadata for an arena and tree of `memorySize` bytes. -/
@[irreducible] def metaSizeOf (memorySize : Nat) : Nat :=
  sizeofMetaShmem + buddyTreeSizeof (buddyTreeOrderForMemory memorySize buddyAllocAlignment)

section Embed

variable {memorySize : Nat}

theorem order_eq (large : 4096 ≤ memorySize) (bound : memorySize < 2 ^ 64) :
    buddyTreeOrderForMemory memorySize buddyAllocAlignment =
      (memorySize / 4096 - 1).size + 1 := by
  have blocks : 0 < memorySize / 4096 := Nat.div_pos large (by decide)
  exact buddyTreeOrderForMemory_eq blocks (by unfold buddyAllocAlignment; omega)

theorem metashmemSizeofAlignment_eq (large : 4096 ≤ memorySize) (bound : memorySize < 2 ^ 64) :
    metashmemSizeofAlignment memorySize buddyAllocAlignment = metaSizeOf memorySize := by
  have valid : isValidAlignment buddyAllocAlignment = true := by decide
  have enough : ¬ memorySize < buddyAllocAlignment := by
    unfold buddyAllocAlignment
    omega
  have order := order_eq large bound
  have small : (memorySize / 4096 - 1).size ≤ 52 := Nat.size_le.mpr (by omega)
  have byte : buddyTreeOrderForMemory memorySize buddyAllocAlignment % 256 =
      buddyTreeOrderForMemory memorySize buddyAllocAlignment := Nat.mod_eq_of_lt (by omega)
  simp [metashmemSizeofAlignment, valid, enough, metaSizeOf, byte]

/-- The metadata is put at the last aligned place at which it fits. -/
theorem metashmemEmbedOffset_eq (large : 4096 ≤ memorySize) (bound : memorySize < 2 ^ 64) :
    metashmemEmbedOffset memorySize buddyAllocAlignment =
      if metaSizeOf memorySize + 8 ≤ memorySize then
        some ⟨(memorySize - metaSizeOf memorySize) / 8 * 8,
          memorySize - (memorySize - metaSizeOf memorySize) / 8 * 8⟩
      else none := by
  have positive : 632 ≤ metaSizeOf memorySize := by
    unfold metaSizeOf sizeofMetaShmem
    omega
  unfold metashmemEmbedOffset alignofMetaShmem
  rw [metashmemSizeofAlignment_eq large bound]
  generalize metaSizeOf memorySize = metaSize at positive
  by_cases tooLarge : metaSize ≥ memorySize
  · rw [if_pos (.inl tooLarge), if_neg (by omega)]
  · rw [if_neg (by omega)]
    by_cases aligned : (memorySize - metaSize) % 8 = 0
    · have noPadding : (memorySize - metaSize) / 8 * 8 = memorySize - metaSize := by omega
      rw [if_neg (by omega), if_pos (by omega), noPadding]
      congr 2
      omega
    · rw [if_pos aligned]
      by_cases padded : metaSize + (memorySize - metaSize) % 8 ≥ memorySize
      · rw [if_pos padded, if_neg (by omega)]
      · rw [if_neg padded, if_pos (by omega)]
        congr 2 <;> omega

end Embed

/-- A tree of a larger order takes at least eight bytes more. -/
theorem buddyTreeSizeof_succ {order : Nat} (positive : 1 ≤ order) :
    buddyTreeSizeof order + 8 ≤ buddyTreeSizeof (order + 1) := by
  by_cases large : 5 ≤ order
  · have power : 2 ^ 5 ≤ 2 ^ order := Nat.pow_le_pow_right (by decide) large
    have bits := sizeForOrder_eq (Nat.zero_le order)
    have bits' := sizeForOrder_eq (Nat.zero_le (order + 1))
    rw [Nat.sub_zero] at bits bits'
    rw [Nat.pow_succ] at bits'
    -- the padding of at most 7 bytes is less than what the larger bitset adds
    have larger : bitsetSizeof (sizeForOrder order 0) + 7 ≤
        bitsetSizeof (sizeForOrder (order + 1) 0) := by
      unfold bitsetSizeof
      omega
    dsimp only [buddyTreeSizeof]
    omega
  · have small : order = 1 ∨ order = 2 ∨ order = 3 ∨ order = 4 := by omega
    rcases small with rfl | rfl | rfl | rfl <;> decide

theorem buddyTreeSizeof_lt {order larger : Nat} (positive : 1 ≤ order) (less : order < larger) :
    buddyTreeSizeof order + 8 ≤ buddyTreeSizeof larger := by
  induction larger with
  | zero => omega
  | succ larger inductionHypothesis =>
      by_cases last : order = larger
      · subst last
        exact buddyTreeSizeof_succ positive
      · have before := inductionHypothesis (by omega)
        have after := buddyTreeSizeof_succ (show 1 ≤ larger by omega)
        omega

/-! ## Initialisation and recovery -/

/-- The metadata of a tree of order 53 is larger than the reserved area. -/
private theorem totalReserved_lt_treeSize : totalReserved < buddyTreeSizeof 53 := by
  have bits := sizeForOrder_eq (Nat.zero_le 53)
  dsimp only [totalReserved, futexAddrQueueSize, objAllocRecsSize, procDeathNotificationSize,
    cxlcgMetaSize, buddyTreeSizeof, bitsetSizeof]
  omega

/-- A mapping that does not hold the reserved area makes the clearing of the
metadata run out of it: the size wraps around and the tree gets order 53. -/
theorem vcxlInitMetaImpl_of_small {memLength : Nat} (small : memLength < totalReserved) :
    vcxlInitMetaImpl memLength = none := by
  have reserved : totalReserved = 98304 := rfl
  obtain ⟨size, isSize⟩ : ∃ size, remaining memLength totalReserved = size := ⟨_, rfl⟩
  have wrapped : size + 98304 = memLength + 2 ^ 64 := by
    unfold remaining at isSize
    omega
  have large : 4096 ≤ size := by omega
  have bound : size < 2 ^ 64 := by omega
  have order : buddyTreeOrderForMemory size buddyAllocAlignment = 53 := by
    have lower : 51 < (size / 4096 - 1).size := Nat.lt_size.mpr (by omega)
    have upper : (size / 4096 - 1).size ≤ 52 := Nat.size_le.mpr (by omega)
    rw [order_eq large bound]
    omega
  have huge : memLength < metaSizeOf size :=
    calc memLength < totalReserved := small
      _ < buddyTreeSizeof 53 := totalReserved_lt_treeSize
      _ ≤ metaSizeOf size := by
          unfold metaSizeOf
          exact le_of_le_of_eq (Nat.le_add_left _ sizeofMetaShmem)
            (congrArg (fun order => sizeofMetaShmem + buddyTreeSizeof order) order.symm)
  unfold vcxlInitMetaImpl
  rewrite [isSize, metashmemEmbedOffset_eq large bound]
  by_cases fits : metaSizeOf size + 8 ≤ size
  · rewrite [if_pos fits, Option.bind_some]
    exact if_pos (by dsimp only; omega)
  · rewrite [if_neg fits]
    exact Option.bind_none _

/-- The two sizes the functions compute, for a mapping that holds the reserved area. -/
theorem remaining_eq {memLength reserved : Nat} (holds : reserved ≤ memLength)
    (bound : memLength < 2 ^ 64) : remaining memLength reserved = memLength - reserved := by
  unfold remaining
  omega

/-- No power of two lies in the gap between two numbers of blocks. -/
def NoPowerBetween (blocks larger : Nat) : Prop := ∀ k, blocks ≤ 2 ^ k → larger ≤ 2 ^ k

/-- The order of the tree is the same for both sizes if no power of two separates them. -/
theorem size_pred_eq_iff {blocks larger : Nat} (positive : 0 < blocks) (le : blocks ≤ larger) :
    (blocks - 1).size = (larger - 1).size ↔ NoPowerBetween blocks larger := by
  constructor
  · intro same k below
    have fits : (blocks - 1).size ≤ k := Nat.size_le.mpr (by omega)
    rw [same] at fits
    have := Nat.size_le.mp fits
    omega
  · intro none
    apply le_antisymm
    · exact Nat.size_le_size (by omega)
    · have power := Nat.lt_size_self (blocks - 1)
      have := none (blocks - 1).size (by omega)
      exact Nat.size_le.mpr (by omega)

/-- Equal orders give metadata of equal size, and a larger order at least eight
bytes more. -/
theorem metaSizeOf_cases {size larger : Nat} (enough : 4096 ≤ size) (le : size ≤ larger)
    (bound : larger < 2 ^ 64) :
    NoPowerBetween (size / 4096) (larger / 4096) ∧ metaSizeOf size = metaSizeOf larger ∨
      ¬ NoPowerBetween (size / 4096) (larger / 4096) ∧
        metaSizeOf size + 8 ≤ metaSizeOf larger := by
  have blocks : 0 < size / 4096 := Nat.div_pos enough (by decide)
  have blocksLe : size / 4096 ≤ larger / 4096 := Nat.div_le_div_right le
  have iff := size_pred_eq_iff blocks blocksLe
  have order := order_eq enough (by omega)
  have order' := order_eq (by omega) bound
  unfold metaSizeOf
  rw [order, order']
  by_cases same : (size / 4096 - 1).size = (larger / 4096 - 1).size
  · exact .inl ⟨iff.mp same, by rw [same]⟩
  · refine .inr ⟨fun none => same (iff.mpr none), ?_⟩
    have grows : (size / 4096 - 1).size ≤ (larger / 4096 - 1).size := Nat.size_le_size (by omega)
    have more := buddyTreeSizeof_lt (show 1 ≤ (size / 4096 - 1).size + 1 by omega)
      (show (size / 4096 - 1).size + 1 < (larger / 4096 - 1).size + 1 by omega)
    omega

/-- What a successful initialisation says about the mapping and the place. -/
theorem vcxlInitMetaImpl_eq_some {memLength address : Nat} (bound : memLength < 2 ^ 64)
    (succeeds : vcxlInitMetaImpl memLength = some address) :
    totalReserved + 4096 ≤ memLength ∧
      metaSizeOf (memLength - totalReserved) + 8 ≤ memLength - totalReserved ∧
      address = (memLength - metaSizeOf (memLength - totalReserved)) / 8 * 8 := by
  have reserved : totalReserved = 98304 := rfl
  by_cases small : memLength < totalReserved
  · rw [vcxlInitMetaImpl_of_small small] at succeeds
    exact absurd succeeds (by simp)
  · unfold vcxlInitMetaImpl at succeeds
    rw [remaining_eq (by omega) bound] at succeeds
    by_cases large : 4096 ≤ memLength - totalReserved
    · rw [metashmemEmbedOffset_eq large (by omega)] at succeeds
      by_cases fits : metaSizeOf (memLength - totalReserved) + 8 ≤ memLength - totalReserved
      · rw [if_pos fits, Option.bind_some] at succeeds
        unfold embedAt at succeeds
        dsimp only at succeeds
        split_ifs at succeeds with _ accepted
        refine ⟨by omega, fits, ?_⟩
        have place := Option.some.inj succeeds
        omega
      · rw [if_neg fits] at succeeds
        exact absurd succeeds (by simp)
    · have refused : metashmemEmbedOffset (memLength - totalReserved) buddyAllocAlignment =
          none := by
        have none : metashmemSizeofAlignment (memLength - totalReserved) buddyAllocAlignment =
            0 := by
          unfold metashmemSizeofAlignment buddyAllocAlignment
          rw [if_neg (by decide), if_pos (by omega)]
        unfold metashmemEmbedOffset
        rw [none]
        exact if_pos (.inr rfl)
      rw [refused] at succeeds
      exact absurd succeeds (by simp)

/-- After a successful initialisation `recover_meta` finds the metadata exactly
when no power of two lies between the numbers of blocks the two functions see. -/
theorem recover_finds_metadata_iff {memLength address : Nat} (bound : memLength < 2 ^ 64)
    (succeeds : vcxlInitMetaImpl memLength = some address) :
    recoverMetaAddress memLength = some address ↔
      NoPowerBetween ((memLength - totalReserved) / buddyAllocAlignment)
        ((memLength - totalReservedRecover) / buddyAllocAlignment) := by
  have reserved : totalReserved = 98304 := rfl
  have reservedRecover : totalReservedRecover = 57344 := rfl
  obtain ⟨holds, fits, place⟩ := vcxlInitMetaImpl_eq_some bound succeeds
  have whole : remaining memLength totalReservedRecover = memLength - totalReservedRecover := by
    refine remaining_eq ?_ bound
    rw [reserved] at holds
    rw [reservedRecover]
    omega
  have sizes := metaSizeOf_cases (show 4096 ≤ memLength - totalReserved by omega)
    (show memLength - totalReserved ≤ memLength - totalReservedRecover by omega) (by omega)
  have embed := metashmemEmbedOffset_eq
    (show 4096 ≤ memLength - totalReservedRecover by omega) (by omega)
  unfold recoverMetaAddress
  rewrite [whole, embed]
  change _ ↔ NoPowerBetween ((memLength - totalReserved) / 4096)
    ((memLength - totalReservedRecover) / 4096)
  rcases sizes with ⟨none, same⟩ | ⟨some, larger⟩
  · refine iff_of_true ?_ none
    rewrite [← same, if_pos (by omega), Option.map_some, place]
    refine congrArg Option.some ?_
    dsimp only
    omega
  · refine iff_of_false ?_ some
    split_ifs with fitsLarger
    · rw [Option.map_some]
      intro found
      have place' := Option.some.inj found
      dsimp only at place'
      omega
    · simp

/-- A mapping of 2 MiB: both functions see a tree of order 10. -/
theorem recover_finds_metadata_iff_2MiB :
    vcxlInitMetaImpl 2097152 = some 2096136 ∧
      (recoverMetaAddress 2097152 = some 2096136 ↔
        NoPowerBetween ((2097152 - totalReserved) / buddyAllocAlignment)
          ((2097152 - totalReservedRecover) / buddyAllocAlignment)) :=
  ⟨by decide, recover_finds_metadata_iff (by decide) (by decide)⟩

/-- With 2^20 bytes after the reserved area `recover_meta` looks for a larger tree. -/
theorem recover_misses_metadata :
    ¬ ∀ memLength address, memLength < 2 ^ 64 → vcxlInitMetaImpl memLength = some address →
      recoverMetaAddress memLength = some address := by
  intro claimed
  have found := claimed 1146880 1146000 (by decide) (by decide)
  exact absurd found (by decide)

/-! ## The parts of the metadata -/

/-- `size_for_order_offset` as `buddy_tree_populate_size_for_order` computes it, in words from
the start of the tree's data. -/
def sizeForOrderOffset (order : Nat) : Nat :=
  let bitsetOffset := bitsetSizeof (sizeForOrder order 0)
  let bitsetOffset :=
    if bitsetOffset % 8 ≠ 0 then bitsetOffset + bitsetOffset % 8 else bitsetOffset
  bitsetOffset / 8 + 1

/-- The bytes from `start` up to `stop`. -/
structure Span where
  start : Nat
  stop : Nat

/-- The spans have no byte in common. -/
def Span.Disjoint (x y : Span) : Prop := x.stop ≤ y.start ∨ y.stop ≤ x.start

def Span.Within (x y : Span) : Prop := y.start ≤ x.start ∧ x.stop ≤ y.stop

/-- What `metashmem_init_alignment` builds for `result.offset` bytes: the arena, and
`struct meta_shmem` with its tree. Places are counted from the start of the arena. -/
structure Embedded where
  arena : Span
  metadata : Span
  bitset : Span
  table : Span

/-- The size `metashmem_init_alignment` trims the arena to. -/
def trimmed (result : BuddyEmbedCheck) : Nat :=
  result.offset - result.offset % buddyAllocAlignment

def embedded (result : BuddyEmbedCheck) : Embedded :=
  let order := buddyTreeOrderForMemory (trimmed result) buddyAllocAlignment
  let data := result.offset + sizeofMetaShmem + 24
  { arena := ⟨0, trimmed result⟩
    metadata := ⟨result.offset, result.offset + sizeofMetaShmem + buddyTreeSizeof order⟩
    bitset := ⟨data, data + bitsetSizeof (sizeForOrder order 0)⟩
    table :=
      ⟨data + 8 * sizeForOrderOffset order, data + 8 * (sizeForOrderOffset order + order + 1)⟩ }

/-- The table is behind the bitset and ends with the tree. -/
theorem sizeForOrderOffset_bounds (order : Nat) :
    bitsetSizeof (sizeForOrder order 0) ≤ 8 * sizeForOrderOffset order ∧
      24 + 8 * (sizeForOrderOffset order + order + 1) ≤ buddyTreeSizeof order := by
  dsimp only [sizeForOrderOffset, buddyTreeSizeof]
  generalize bitsetSizeof (sizeForOrder order 0) = bitset
  split <;> omega

/-- A smaller arena needs no larger tree. -/
theorem metaSizeOf_mono {size larger : Nat} (enough : 4096 ≤ size) (le : size ≤ larger)
    (bound : larger < 2 ^ 64) : metaSizeOf size ≤ metaSizeOf larger := by
  rcases metaSizeOf_cases enough le bound with ⟨_, same⟩ | ⟨_, more⟩ <;> omega

/-- The arena and the metadata are apart and inside the memory, the metadata is aligned, and
bitset and table of the tree are apart inside the size that was reserved for the metadata. -/
theorem embedded_apart {memLength : Nat} {result : BuddyEmbedCheck} (bound : memLength < 2 ^ 64)
    (holds : totalReserved ≤ memLength)
    (canFit : metashmemEmbedOffset (remaining memLength totalReserved) buddyAllocAlignment =
      some result)
    (enough : buddyAllocAlignment ≤ trimmed result) :
    let memory : Span := ⟨0, memLength - totalReserved⟩
    let reserved : Span := ⟨result.offset, result.offset + result.buddySize⟩
    let parts := embedded result
    parts.arena.Disjoint parts.metadata ∧ parts.arena.Within memory ∧
      parts.metadata.Within memory ∧ alignofMetaShmem ∣ result.offset ∧
      parts.bitset.Disjoint parts.table ∧ parts.bitset.Within reserved ∧
      parts.table.Within reserved ∧ reserved.Within memory := by
  intro memory reserved parts
  rw [remaining_eq holds bound] at canFit
  have large : 4096 ≤ trimmed result := enough
  have smaller : trimmed result ≤ result.offset := Nat.sub_le _ _
  by_cases whole : 4096 ≤ memLength - totalReserved
  · rw [metashmemEmbedOffset_eq whole (by omega)] at canFit
    split at canFit
    · rename_i fits
      have place := Option.some.inj canFit
      have offset : (memLength - totalReserved - metaSizeOf (memLength - totalReserved)) / 8 * 8 =
          result.offset := congrArg BuddyEmbedCheck.offset place
      have buddySize : memLength - totalReserved - (memLength - totalReserved -
          metaSizeOf (memLength - totalReserved)) / 8 * 8 = result.buddySize :=
        congrArg BuddyEmbedCheck.buddySize place
      have size := metaSizeOf_mono large
        (show trimmed result ≤ memLength - totalReserved by omega) (by omega)
      obtain ⟨behind, ends⟩ := sizeForOrderOffset_bounds
        (buddyTreeOrderForMemory (trimmed result) buddyAllocAlignment)
      have tree : metaSizeOf (trimmed result) = sizeofMetaShmem + buddyTreeSizeof
        (buddyTreeOrderForMemory (trimmed result) buddyAllocAlignment) := by rw [metaSizeOf]
      refine ⟨.inl smaller, ⟨le_rfl, ?_⟩, ⟨Nat.zero_le _, ?_⟩, ?_, .inl ?_, ⟨?_, ?_⟩, ⟨?_, ?_⟩,
        ⟨Nat.zero_le _, ?_⟩⟩
      all_goals dsimp only [parts, embedded, memory, reserved, alignofMetaShmem]
      all_goals omega
    · exact absurd canFit (by simp)
  · have refused :
        metashmemSizeofAlignment (memLength - totalReserved) buddyAllocAlignment = 0 := by
      unfold metashmemSizeofAlignment buddyAllocAlignment
      rw [if_neg (by decide), if_pos (by omega)]
    rw [metashmemEmbedOffset, refused] at canFit
    simp at canFit

/-- A mapping of 2 MiB. -/
theorem embedded_apart_2MiB :
    metashmemEmbedOffset (remaining 2097152 totalReserved) buddyAllocAlignment =
        some ⟨1997832, 1016⟩ ∧
      (embedded ⟨1997832, 1016⟩).arena.Disjoint (embedded ⟨1997832, 1016⟩).metadata :=
  ⟨by decide, (embedded_apart (by decide : 2097152 < 2 ^ 64) (by decide) (by decide)
    (by decide)).1⟩

end Lupin.Layout
