import Mathlib.Data.List.Nodup
import Lupin.Lib.StoreTrace

/-!
# The byte-backed bitset

Bit `k` of a bitset is bit `k % 8` of its byte `k / 8`. Range operations store
the first byte, then the last one, then those between, each with a mask; a
machine that stops in between has done some of these stores.
-/

namespace Lupin.Buddy

open Lupin.Memory

/-- Bit `k` of the bitset at an address. -/
def bit (m : Mem) (bitset k : Nat) : Bool := (m (bitset + k / 8)).getLsbD (k % 8)

/-- The table `bitset_index_mask`. -/
def bitsetIndexMask (index : Nat) : Byte := 1#8 <<< index

/-- The table `bitset_char_mask`: the bits from the row to the column. -/
def bitsetCharMask : List (List Byte) :=
  [[1, 3, 7, 15, 31, 63, 127, 255],
   [0, 2, 6, 14, 30, 62, 126, 254],
   [0, 0, 4, 12, 28, 60, 124, 252],
   [0, 0, 0, 8, 24, 56, 120, 248],
   [0, 0, 0, 0, 16, 48, 112, 240],
   [0, 0, 0, 0, 0, 32, 96, 224],
   [0, 0, 0, 0, 0, 0, 64, 192],
   [0, 0, 0, 0, 0, 0, 0, 128]]

def charMask (fromIndex toIndex : Nat) : Byte :=
  ((bitsetCharMask.getD fromIndex []).getD toIndex 0)

/-- `popcount_byte`, whose table holds the number of set bits of each byte. -/
def popcountByte (b : Byte) : Nat := (List.range 8).countP fun i => b.getLsbD i

/-- `bitset_test`. -/
def bitsetTest (m : Mem) (bitset pos : Nat) : Bool :=
  m (bitset + pos / 8) &&& bitsetIndexMask (pos % 8) != 0

/-- `bitset_set`. -/
def bitsetSet (bitset pos : Nat) : Shm Unit := do
  let m ← Shm.get
  Shm.put ⟨bitset + pos / 8, [m (bitset + pos / 8) ||| bitsetIndexMask (pos % 8)]⟩

/-- `bitset_clear`. -/
def bitsetClear (bitset pos : Nat) : Shm Unit := do
  let m ← Shm.get
  Shm.put ⟨bitset + pos / 8, [m (bitset + pos / 8) &&& ~~~bitsetIndexMask (pos % 8)]⟩

/-- The loop over the bytes between the first and the last one. -/
def fillBetween (bitset : Nat) (fill : Byte) : (count bucket : Nat) → Shm Unit
  | 0, _ => pure ()
  | count + 1, bucket => do
      Shm.put ⟨bitset + bucket, [fill]⟩
      fillBetween bitset fill count (bucket + 1)

/-- The common body of `bitset_clear_range` and `bitset_set_range`; both ends are
included. -/
def updateRange (update : Byte → Byte → Byte) (fill : Byte) (bitset fromPos toPos : Nat) :
    Shm Unit := do
  let fromBucket := fromPos / 8
  let toBucket := toPos / 8
  let fromIndex := fromPos % 8
  let toIndex := toPos % 8
  if fromBucket = toBucket then
    let m ← Shm.get
    Shm.put ⟨bitset + fromBucket, [update (m (bitset + fromBucket)) (charMask fromIndex toIndex)]⟩
  else
    let m ← Shm.get
    Shm.put ⟨bitset + fromBucket, [update (m (bitset + fromBucket)) (charMask fromIndex 7)]⟩
    let m ← Shm.get
    Shm.put ⟨bitset + toBucket, [update (m (bitset + toBucket)) (charMask 0 toIndex)]⟩
    fillBetween bitset fill (toBucket - (fromBucket + 1)) (fromBucket + 1)

/-- `bitset_clear_range`. -/
def bitsetClearRange (bitset fromPos toPos : Nat) : Shm Unit :=
  updateRange (fun byte mask => byte &&& ~~~mask) 0 bitset fromPos toPos

/-- `bitset_set_range`. -/
def bitsetSetRange (bitset fromPos toPos : Nat) : Shm Unit :=
  updateRange (fun byte mask => byte ||| mask) 255 bitset fromPos toPos

/-- The bytes between the first and the last one in `bitset_count_range`. -/
def countBetween (m : Mem) (bitset : Nat) : (count bucket : Nat) → Nat
  | 0, _ => 0
  | count + 1, bucket =>
      popcountByte (m (bitset + bucket)) + countBetween m bitset count (bucket + 1)

/-- `bitset_count_range`. -/
def bitsetCountRange (m : Mem) (bitset fromPos toPos : Nat) : Nat :=
  let fromBucket := fromPos / 8
  let toBucket := toPos / 8
  let fromIndex := fromPos % 8
  let toIndex := toPos % 8
  if fromBucket = toBucket then
    popcountByte (m (bitset + fromBucket) &&& charMask fromIndex toIndex)
  else
    popcountByte (m (bitset + fromBucket) &&& charMask fromIndex 7) +
      popcountByte (m (bitset + toBucket) &&& charMask 0 toIndex) +
      countBetween m bitset (toBucket - (fromBucket + 1)) (fromBucket + 1)

/-! ## Masks -/

theorem getLsbD_charMask {fromIndex toIndex i : Nat} (fromBound : fromIndex < 8)
    (toBound : toIndex < 8) (bound : i < 8) :
    (charMask fromIndex toIndex).getLsbD i = decide (fromIndex ≤ i ∧ i ≤ toIndex) := by
  have all : ∀ f : Fin 8, ∀ t : Fin 8, ∀ j : Fin 8,
      (charMask f t).getLsbD j = decide (f.val ≤ j.val ∧ j.val ≤ t.val) := by decide
  exact all ⟨fromIndex, fromBound⟩ ⟨toIndex, toBound⟩ ⟨i, bound⟩

theorem getLsbD_bitsetIndexMask {index i : Nat} (indexBound : index < 8) (bound : i < 8) :
    (bitsetIndexMask index).getLsbD i = decide (i = index) := by
  have all : ∀ f : Fin 8, ∀ j : Fin 8,
      (bitsetIndexMask f).getLsbD j = decide (j.val = f.val) := by decide
  exact all ⟨index, indexBound⟩ ⟨i, bound⟩

/-- The masks a range operation stores with, by byte and in the order of its stores. -/
def rangeMasks (fromPos toPos : Nat) : List (Nat × Byte) :=
  if fromPos / 8 = toPos / 8 then [(fromPos / 8, charMask (fromPos % 8) (toPos % 8))]
  else
    (fromPos / 8, charMask (fromPos % 8) 7) :: (toPos / 8, charMask 0 (toPos % 8)) ::
      (List.range (toPos / 8 - (fromPos / 8 + 1))).map fun i => (fromPos / 8 + 1 + i, 255)

/-- The stores of masked bytes, as they are made from `m`. -/
def maskStores (update : Byte → Byte → Byte) (bitset : Nat) (m : Mem)
    (masks : List (Nat × Byte)) : List Store :=
  masks.map fun (bucket, mask) => ⟨bitset + bucket, [update (m (bitset + bucket)) mask]⟩

/-- Bit `k` is one of those the masks select. -/
def Selected (masks : List (Nat × Byte)) (k : Nat) : Prop :=
  ∃ entry ∈ masks, entry.1 = k / 8 ∧ entry.2.getLsbD (k % 8) = true

theorem rangeMasks_nodup (fromPos toPos : Nat) :
    ((rangeMasks fromPos toPos).map Prod.fst).Nodup := by
  unfold rangeMasks
  split
  · simp
  · rename_i different
    simp only [List.map_cons, List.map_map, List.nodup_cons, List.mem_cons, List.mem_map,
      List.mem_range, Function.comp_apply, not_or, not_exists, not_and]
    refine ⟨⟨different, fun i _ => by omega⟩, fun i below => by omega, ?_⟩
    exact (List.nodup_range).map fun i j same => by simpa using same

/-- A range operation selects the bits of its range. -/
theorem selected_rangeMasks {fromPos toPos : Nat} (ordered : fromPos ≤ toPos) (k : Nat) :
    Selected (rangeMasks fromPos toPos) k ↔ fromPos ≤ k ∧ k ≤ toPos := by
  have inByte : k % 8 < 8 := Nat.mod_lt _ (by decide)
  have fromByte : fromPos % 8 < 8 := Nat.mod_lt _ (by decide)
  have toByte : toPos % 8 < 8 := Nat.mod_lt _ (by decide)
  unfold Selected rangeMasks
  split
  · rename_i same
    simp only [List.mem_singleton, exists_eq_left, getLsbD_charMask fromByte toByte inByte,
      decide_eq_true_eq]
    omega
  · rename_i different
    simp only [List.mem_cons, List.mem_map, List.mem_range, or_and_right, exists_or,
      exists_eq_left, getLsbD_charMask fromByte (by decide : 7 < 8) inByte,
      getLsbD_charMask (by decide : 0 < 8) toByte inByte, decide_eq_true_eq]
    constructor
    · rintro (⟨bucket, mask⟩ | ⟨bucket, mask⟩ | ⟨entry, ⟨i, below, rfl⟩, bucket, _⟩)
      · omega
      · omega
      · dsimp only at bucket
        omega
    · rintro ⟨above, below⟩
      by_cases first : fromPos / 8 = k / 8
      · exact .inl ⟨first, by omega⟩
      · by_cases last : toPos / 8 = k / 8
        · exact .inr (.inl ⟨last, by omega⟩)
        · refine .inr (.inr ⟨(k / 8, 255), ⟨k / 8 - (fromPos / 8 + 1), by omega, ?_⟩, rfl, ?_⟩)
          · rw [Nat.add_sub_cancel' (by omega)]
          · have ones : ∀ j : Fin 8, (255 : Byte).getLsbD j = true := by decide
            exact ones ⟨k % 8, inByte⟩

/-! ## What the stores of a range operation do -/

section Stores

variable {update : Byte → Byte → Byte} {bitset : Nat} {m : Mem} {masks : List (Nat × Byte)}

/-- Every byte gets its own mask, from what it was before. -/
theorem apply_maskStores (distinct : (masks.map Prod.fst).Nodup) {bucket : Nat} {mask : Byte}
    (member : (bucket, mask) ∈ masks) (m' : Mem) :
    m'.apply (maskStores update bitset m masks) (bitset + bucket) =
      update (m (bitset + bucket)) mask := by
  induction masks generalizing m' with
  | nil => simp at member
  | cons entry rest inductionHypothesis =>
      rw [List.map_cons, List.nodup_cons] at distinct
      rcases List.mem_cons.mp member with rfl | inRest
      · have untouched : ∀ s ∈ maskStores update bitset m rest, ¬ s.Covers (bitset + bucket) := by
          intro s stored
          obtain ⟨other, otherMember, rfl⟩ := List.mem_map.mp stored
          have apart : other.1 ≠ bucket := by
            rintro rfl
            exact distinct.1 (List.mem_map.mpr ⟨other, otherMember, rfl⟩)
          simp only [Store.Covers, List.length_singleton]
          omega
        rw [maskStores, List.map_cons, Mem.apply_cons]
        refine (Mem.apply_of_not_covers untouched _).trans ?_
        simp [Mem.store]
      · rw [maskStores, List.map_cons, Mem.apply_cons]
        exact inductionHypothesis distinct.2 inRest _

theorem apply_maskStores_of_not_mem {a : Nat}
    (outside : ∀ entry ∈ masks, bitset + entry.1 ≠ a) (m' : Mem) :
    m'.apply (maskStores update bitset m masks) a = m' a := by
  apply Mem.apply_of_not_covers
  intro s stored
  obtain ⟨entry, member, rfl⟩ := List.mem_map.mp stored
  have apart := outside entry member
  simp only [Store.Covers, List.length_singleton]
  omega

theorem maskStores_take (k : Nat) :
    (maskStores update bitset m masks).take k = maskStores update bitset m (masks.take k) := by
  unfold maskStores
  rw [List.map_take]

/-- The update puts `value` where the mask has a bit and keeps the rest. -/
def Writes (update : Byte → Byte → Byte) (value : Bool) : Prop :=
  ∀ (byte mask : Byte) (i : Nat), i < 8 →
    (update byte mask).getLsbD i = if mask.getLsbD i then value else byte.getLsbD i

theorem writes_clear : Writes (fun byte mask => byte &&& ~~~mask) false := by
  intro byte mask i bound
  rw [BitVec.getLsbD_and, BitVec.getLsbD_not]
  cases mask.getLsbD i <;> simp [bound]

theorem writes_set : Writes (fun byte mask => byte ||| mask) true := by
  intro byte mask i bound
  rw [BitVec.getLsbD_or]
  cases mask.getLsbD i <;> simp

theorem bit_of_selected {value : Bool} (writes : Writes update value)
    (distinct : (masks.map Prod.fst).Nodup) {k : Nat} (selected : Selected masks k) :
    bit (m.apply (maskStores update bitset m masks)) bitset k = value := by
  obtain ⟨⟨bucket, mask⟩, member, rfl, set⟩ := selected
  unfold bit
  rw [apply_maskStores distinct member, writes _ _ _ (Nat.mod_lt _ (by decide)), if_pos set]

theorem bit_of_not_selected {value : Bool} (writes : Writes update value)
    (distinct : (masks.map Prod.fst).Nodup) {k : Nat} (unselected : ¬ Selected masks k) :
    bit (m.apply (maskStores update bitset m masks)) bitset k = bit m bitset k := by
  unfold bit
  by_cases touched : ∃ mask, (k / 8, mask) ∈ masks
  · obtain ⟨mask, member⟩ := touched
    have clear : ¬ mask.getLsbD (k % 8) = true := fun set => unselected ⟨_, member, rfl, set⟩
    rw [apply_maskStores distinct member, writes _ _ _ (Nat.mod_lt _ (by decide)), if_neg clear]
  · rw [apply_maskStores_of_not_mem]
    rintro ⟨bucket, mask⟩ member same
    exact touched ⟨mask, by rw [show k / 8 = bucket by omega]; exact member⟩

end Stores

/-! ## The range operations -/

theorem fillBetween_returns (bitset : Nat) (fill : Byte) (count bucket : Nat) (m : Mem) :
    (fillBetween bitset fill count bucket).Returns m
      ((List.range count).map fun i => ⟨bitset + (bucket + i), [fill]⟩) () := by
  induction count generalizing bucket m with
  | zero => exact Shm.Returns.pure m ()
  | succ count inductionHypothesis =>
      rw [List.range_succ_eq_map, List.map_cons, List.map_map]
      refine Shm.Returns.put_bind ?_
      have shifted : ((fun i => (⟨bitset + (bucket + i), [fill]⟩ : Store)) ∘ Nat.succ) =
          fun i => ⟨bitset + (bucket + 1 + i), [fill]⟩ := by
        funext i
        simp only [Function.comp, Nat.succ_eq_add_one]
        congr 2
        omega
      rw [shifted]
      exact inductionHypothesis (bucket + 1) _

/-- A range operation makes its masked stores and nothing else. -/
theorem updateRange_returns {update : Byte → Byte → Byte} {fill : Byte}
    (whole : ∀ byte, update byte 255 = fill) (bitset fromPos toPos : Nat) (m : Mem) :
    (updateRange update fill bitset fromPos toPos).Returns m
      (maskStores update bitset m (rangeMasks fromPos toPos)) () := by
  unfold updateRange rangeMasks
  by_cases same : fromPos / 8 = toPos / 8
  · simp only [if_pos same]
    exact Shm.Returns.get_bind (Shm.Returns.put m _)
  · simp only [if_neg same, maskStores, List.map_cons, List.map_map]
    refine Shm.Returns.get_bind (Shm.Returns.put_bind (Shm.Returns.get_bind ?_))
    rw [Mem.store_of_not_covers]
    · refine Shm.Returns.put_bind ?_
      have filled : ((fun entry : Nat × Byte =>
          (⟨bitset + entry.1, [update (m (bitset + entry.1)) entry.2]⟩ : Store)) ∘
            fun i => (fromPos / 8 + 1 + i, 255)) =
          fun i => ⟨bitset + (fromPos / 8 + 1 + i), [fill]⟩ := by
        funext i
        simp only [Function.comp, whole]
      rw [filled]
      exact fillBetween_returns bitset fill _ _ _
    · simp only [Store.Covers, List.length_singleton]
      omega

theorem bitsetClearRange_returns (bitset fromPos toPos : Nat) (m : Mem) :
    (bitsetClearRange bitset fromPos toPos).Returns m
      (maskStores (fun byte mask => byte &&& ~~~mask) bitset m (rangeMasks fromPos toPos)) () :=
  updateRange_returns (by decide) bitset fromPos toPos m

theorem bitsetSetRange_returns (bitset fromPos toPos : Nat) (m : Mem) :
    (bitsetSetRange bitset fromPos toPos).Returns m
      (maskStores (fun byte mask => byte ||| mask) bitset m (rangeMasks fromPos toPos)) () :=
  updateRange_returns (by decide) bitset fromPos toPos m

/-! ## Reading -/

theorem bitsetTest_eq (m : Mem) (bitset pos : Nat) :
    bitsetTest m bitset pos = bit m bitset pos := by
  have inByte : pos % 8 < 8 := Nat.mod_lt _ (by decide)
  have masked : ∀ i, i < 8 → (m (bitset + pos / 8) &&& bitsetIndexMask (pos % 8)).getLsbD i =
      ((m (bitset + pos / 8)).getLsbD i && decide (i = pos % 8)) := by
    intro i bound
    rw [BitVec.getLsbD_and, getLsbD_bitsetIndexMask inByte bound]
  unfold bitsetTest bit
  cases set : (m (bitset + pos / 8)).getLsbD (pos % 8) with
  | true =>
      rw [bne_iff_ne]
      intro zero
      have here := masked (pos % 8) inByte
      rw [zero, set] at here
      simp at here
  | false =>
      rw [bne_eq_false_iff_eq]
      apply BitVec.eq_of_getLsbD_eq
      intro i bound
      rw [masked i bound]
      by_cases same : i = pos % 8
      · subst same
        simp [set]
      · simp [same]

/-- The number of set bits among `count` bits from `start` on. -/
def countBits (m : Mem) (bitset start count : Nat) : Nat :=
  (List.range count).countP fun j => bit m bitset (start + j)

theorem countBits_add (m : Mem) (bitset start first second : Nat) :
    countBits m bitset start (first + second) =
      countBits m bitset start first + countBits m bitset (start + first) second := by
  unfold countBits
  rw [List.range_add, List.countP_append, List.countP_map]
  congr 2
  funext j
  simp only [Function.comp, Nat.add_assoc]

theorem countBits_le (m : Mem) (bitset start count : Nat) :
    countBits m bitset start count ≤ count := by
  unfold countBits
  exact le_of_le_of_eq List.countP_le_length List.length_range

/-- A masked byte has the set bits of its part of the range. -/
theorem popcountByte_charMask (m : Mem) (bitset bucket : Nat) {fromIndex toIndex : Nat}
    (ordered : fromIndex ≤ toIndex) (bound : toIndex < 8) :
    popcountByte (m (bitset + bucket) &&& charMask fromIndex toIndex) =
      countBits m bitset (8 * bucket + fromIndex) (toIndex + 1 - fromIndex) := by
  obtain ⟨width, rfl⟩ : ∃ width, toIndex = fromIndex + width := ⟨toIndex - fromIndex, by omega⟩
  obtain ⟨above, total⟩ : ∃ above, 8 = fromIndex + ((width + 1) + above) :=
    ⟨8 - (fromIndex + width + 1), by omega⟩
  have masked : ∀ i, i < 8 →
      (m (bitset + bucket) &&& charMask fromIndex (fromIndex + width)).getLsbD i =
      ((m (bitset + bucket)).getLsbD i && decide (fromIndex ≤ i ∧ i ≤ fromIndex + width)) := by
    intro i inByte
    rw [BitVec.getLsbD_and, getLsbD_charMask (by omega) bound inByte]
  have bits : ∀ i, i < 8 → (m (bitset + bucket)).getLsbD i = bit m bitset (8 * bucket + i) := by
    intro i inByte
    unfold bit
    rw [show (8 * bucket + i) / 8 = bucket by omega, show (8 * bucket + i) % 8 = i by omega]
  have parts : List.range 8 = List.range fromIndex ++
      ((List.range (width + 1)).map (fromIndex + ·) ++
        ((List.range above).map (width + 1 + ·)).map (fromIndex + ·)) := by
    conv_lhs => rw [total]
    rw [List.range_add, List.range_add, List.map_append]
  have low : (List.range fromIndex).countP
      (fun i => (m (bitset + bucket) &&& charMask fromIndex (fromIndex + width)).getLsbD i) =
        0 := by
    rw [List.countP_eq_zero]
    intro i member
    have inside := List.mem_range.mp member
    rw [masked i (by omega)]
    simp
    omega
  have high : (((List.range above).map (width + 1 + ·)).map (fromIndex + ·)).countP
      (fun i => (m (bitset + bucket) &&& charMask fromIndex (fromIndex + width)).getLsbD i) =
        0 := by
    rw [List.countP_eq_zero]
    intro i member
    simp only [List.map_map, List.mem_map, List.mem_range, Function.comp] at member
    obtain ⟨j, inside, rfl⟩ := member
    rw [masked _ (by omega)]
    simp
    omega
  unfold popcountByte countBits
  rw [parts, List.countP_append, List.countP_append, low, high, List.countP_map, Nat.zero_add,
    Nat.add_zero, show fromIndex + width + 1 - fromIndex = width + 1 by omega]
  apply List.countP_congr
  intro i member
  have inside := List.mem_range.mp member
  simp only [Function.comp]
  rw [masked _ (by omega), bits _ (by omega), Nat.add_assoc]
  simp
  omega

theorem countBetween_eq (m : Mem) (bitset count bucket : Nat) :
    countBetween m bitset count bucket = countBits m bitset (8 * bucket) (8 * count) := by
  induction count generalizing bucket with
  | zero => rfl
  | succ count inductionHypothesis =>
      have wholeMask : charMask 0 7 = 255 := by decide
      have whole := popcountByte_charMask m bitset bucket (Nat.zero_le 7) (by decide)
      have byte : m (bitset + bucket) &&& charMask 0 7 = m (bitset + bucket) := by
        rw [wholeMask]
        exact BitVec.and_allOnes
      rw [byte] at whole
      rw [countBetween, inductionHypothesis, whole, show 8 * (count + 1) = 8 + 8 * count by omega,
        countBits_add]
      rfl

/-- `bitset_count_range` counts the set bits of the range. -/
theorem bitsetCountRange_eq (m : Mem) (bitset : Nat) {fromPos toPos : Nat}
    (ordered : fromPos ≤ toPos) :
    bitsetCountRange m bitset fromPos toPos = countBits m bitset fromPos (toPos + 1 - fromPos) := by
  have fromByte : fromPos % 8 < 8 := Nat.mod_lt _ (by decide)
  have toByte : toPos % 8 < 8 := Nat.mod_lt _ (by decide)
  unfold bitsetCountRange
  by_cases same : fromPos / 8 = toPos / 8
  · simp only [if_pos same]
    rw [popcountByte_charMask m bitset _ (by omega) toByte]
    congr 1 <;> omega
  · simp only [if_neg same]
    rw [popcountByte_charMask m bitset _ (by omega) (by decide),
      popcountByte_charMask m bitset _ (Nat.zero_le _) toByte, countBetween_eq]
    have total : toPos + 1 - fromPos = (7 + 1 - fromPos % 8) +
        (8 * (toPos / 8 - (fromPos / 8 + 1)) + (toPos % 8 + 1 - 0)) := by omega
    rw [total, countBits_add, countBits_add]
    rw [show 8 * (fromPos / 8) + fromPos % 8 = fromPos by omega,
      show fromPos + (7 + 1 - fromPos % 8) = 8 * (fromPos / 8 + 1) by omega,
      show 8 * (fromPos / 8 + 1) + 8 * (toPos / 8 - (fromPos / 8 + 1)) =
        8 * (toPos / 8) + 0 by omega]
    omega

/-! ## Single bits -/

section Single

variable {update : Byte → Byte → Byte} {bitset pos : Nat} {m m' : Mem}

/-- The store of `bitset_set` and `bitset_clear`. -/
def indexStore (update : Byte → Byte → Byte) (bitset : Nat) (m : Mem) (pos : Nat) : Store :=
  ⟨bitset + pos / 8, [update (m (bitset + pos / 8)) (bitsetIndexMask (pos % 8))]⟩

theorem bitsetSet_returns (bitset pos : Nat) (m : Mem) :
    (bitsetSet bitset pos).Returns m
      [indexStore (fun byte mask => byte ||| mask) bitset m pos] () :=
  .get_bind (.put _ _)

theorem bitsetClear_returns (bitset pos : Nat) (m : Mem) :
    (bitsetClear bitset pos).Returns m
      [indexStore (fun byte mask => byte &&& ~~~mask) bitset m pos] () :=
  .get_bind (.put _ _)

/-- One bit is written, the others stay. -/
theorem bit_indexStore {value : Bool} (writes : Writes update value) (k : Nat) :
    bit (m.store (indexStore update bitset m pos)) bitset k =
      if k = pos then value else bit m bitset k := by
  have inByte : pos % 8 < 8 := Nat.mod_lt _ (by decide)
  have selected : Selected [(pos / 8, bitsetIndexMask (pos % 8))] k ↔ k = pos := by
    simp only [Selected, List.mem_singleton, exists_eq_left,
      getLsbD_bitsetIndexMask inByte (Nat.mod_lt k (by decide)), decide_eq_true_eq]
    omega
  split
  · rename_i here
    exact bit_of_selected writes (by simp) (selected.mpr here)
  · rename_i elsewhere
    exact bit_of_not_selected writes (by simp) (mt selected.mp elsewhere)

/-- Setting a clear bit adds one to the count. -/
theorem countBits_of_set {start count : Nat} (inside : pos < count)
    (clear : bit m bitset (start + pos) = false) (set : bit m' bitset (start + pos) = true)
    (others : ∀ j, j < count → j ≠ pos → bit m' bitset (start + j) = bit m bitset (start + j)) :
    countBits m' bitset start count = countBits m bitset start count + 1 := by
  obtain ⟨rest, rfl⟩ : ∃ rest, count = pos + (1 + rest) := ⟨count - pos - 1, by omega⟩
  have one : ∀ m'' : Mem, countBits m'' bitset (start + pos) 1 =
      if bit m'' bitset (start + pos) then 1 else 0 := fun m'' => by
    simp [countBits, List.countP_cons]
  have before : countBits m' bitset start pos = countBits m bitset start pos :=
    List.countP_congr fun j member => by
      have := List.mem_range.mp member
      rw [others j (by omega) (by omega)]
  have after : countBits m' bitset (start + pos + 1) rest =
      countBits m bitset (start + pos + 1) rest :=
    List.countP_congr fun j member => by
      have := List.mem_range.mp member
      rw [Nat.add_assoc, Nat.add_assoc, others (pos + (1 + j)) (by omega) (by omega)]
  rw [countBits_add, countBits_add, countBits_add, countBits_add m, before, after, one, one, clear,
    set]
  simp only [Bool.false_eq_true, if_true, if_false]
  omega

end Single

/-! ## The stores of a range -/

theorem fillBetween_emits (bitset : Nat) (fill : Byte) (count bucket : Nat) :
    Shm.Emits (fun s => bitset ≤ s.addr) (fillBetween bitset fill count bucket) := by
  induction count generalizing bucket with
  | zero => exact .pure _
  | succ count inductionHypothesis =>
      exact .bind (.put (Nat.le_add_right _ _)) fun _ => inductionHypothesis _

theorem updateRange_emits (update : Byte → Byte → Byte) (fill : Byte)
    (bitset fromPos toPos : Nat) :
    Shm.Emits (fun s => bitset ≤ s.addr) (updateRange update fill bitset fromPos toPos) := by
  exact .ite (.get_bind fun _ => .put (Nat.le_add_right _ _))
    (.get_bind fun _ => .bind (.put (Nat.le_add_right _ _)) fun _ => .get_bind fun _ =>
      .bind (.put (Nat.le_add_right _ _)) fun _ => fillBetween_emits _ _ _ _)

/-! ## Memories with the same bits -/

section Congr

variable {m m' : Mem} {bitset : Nat}

theorem bitsetTest_congr (same : ∀ a, bitset ≤ a → m' a = m a) (pos : Nat) :
    bitsetTest m' bitset pos = bitsetTest m bitset pos := by
  rw [bitsetTest, bitsetTest, same _ (Nat.le_add_right _ _)]

theorem countBetween_congr (same : ∀ a, bitset ≤ a → m' a = m a) (count bucket : Nat) :
    countBetween m' bitset count bucket = countBetween m bitset count bucket := by
  induction count generalizing bucket with
  | zero => rfl
  | succ count inductionHypothesis =>
      rw [countBetween, countBetween, same _ (Nat.le_add_right _ _), inductionHypothesis]

theorem bitsetCountRange_congr (same : ∀ a, bitset ≤ a → m' a = m a) (fromPos toPos : Nat) :
    bitsetCountRange m' bitset fromPos toPos = bitsetCountRange m bitset fromPos toPos := by
  simp only [bitsetCountRange, same _ (Nat.le_add_right bitset _), countBetween_congr same]

end Congr

end Lupin.Buddy
