import Lupin.Lib.Linked
import Lupin.Log.Recover

/-!
# The lists of headers and record pages

A `list_queue` in shared memory and the entries that record an append or a removal.
The entries are computed from the memory at recording time and take effect when the
log is executed. Offset 0 is the null pointer.
-/

namespace Lupin.Alloc

open Lupin.Memory Lupin.Buddy Lupin.Log Lupin.LinkedList

/-! Fields of `struct list_queue`. -/

def peFirst (lq : Nat) : Nat := lq
def peTail (lq : Nat) : Nat := lq + 8

/-- `record_list_queue_append`. -/
def recordListQueueAppend (log redologPos lq le : Nat) : Shm Nat := do
  let m ← Shm.get
  let redologPos ←
    if m.read 8 (peFirst lq) = 0 then
      setTwoValueLogEntry log redologPos (lePrevOptr le) 0 (peFirst lq) le
    else
      setTwoValueLogEntry log redologPos (lePrevOptr le) (m.read 8 (peTail lq))
        (leNextOptr (m.read 8 (peTail lq))) le
  setTwoValueLogEntry log redologPos (leNextOptr le) 0 (peTail lq) le

/-- `record_list_queue_remove`. -/
def recordListQueueRemove (log redologPos lq le : Nat) : Shm Nat := do
  Shm.bugOn (le == 0)
  let m ← Shm.get
  if m.read 8 (peFirst lq) = le ∧ m.read 8 (leNextOptr le) = 0 then
    setValueLogEntry log redologPos (peFirst lq) 0
  else
    let redologPos ← setTwoValueLogEntry log redologPos
      (lePrevOptr (m.read 8 (leNextOptr le))) (m.read 8 (lePrevOptr le))
      (leNextOptr (m.read 8 (lePrevOptr le))) (m.read 8 (leNextOptr le))
    let m ← Shm.get
    if m.read 8 (peFirst lq) = le then
      setValueLogEntry log redologPos (peFirst lq) (m.read 8 (leNextOptr le))
    else pure redologPos

/-! ## The recorded entries -/

/-- The entries of an append. -/
def appendEntries (m : Mem) (lq le : Nat) : List LogEntry :=
  [if m.read 8 (peFirst lq) = 0 then .twoVal (lePrevOptr le) 0 (peFirst lq) le
    else .twoVal (lePrevOptr le) (m.read 8 (peTail lq)) (leNextOptr (m.read 8 (peTail lq))) le,
    .twoVal (leNextOptr le) 0 (peTail lq) le]

/-- The entries of a removal. -/
def removeEntries (m : Mem) (lq le : Nat) : List LogEntry :=
  if m.read 8 (peFirst lq) = le ∧ m.read 8 (leNextOptr le) = 0 then [.val (peFirst lq) 0]
  else
    .twoVal (lePrevOptr (m.read 8 (leNextOptr le))) (m.read 8 (lePrevOptr le))
        (leNextOptr (m.read 8 (lePrevOptr le))) (m.read 8 (leNextOptr le)) ::
      if m.read 8 (peFirst lq) = le then [.val (peFirst lq) (m.read 8 (leNextOptr le))] else []

theorem recordListQueueAppend_eq (m : Mem) (log redologPos lq le : Nat) :
    recordListQueueAppend log redologPos lq le m =
      setAll log redologPos (appendEntries m lq le) m := by
  rw [recordListQueueAppend, (Shm.Returns.get m).bind_eq]
  unfold appendEntries
  split <;> simp only [setAll, LogEntry.set, bind_pure]

/-- Recording does not change what it reads as long as the log is elsewhere. -/
theorem recordListQueueRemove_eq {m : Mem} {log redologPos lq le : Nat} (notNull : le ≠ 0)
    (room : redologPos < redologEntries)
    (queueApart : lq + 16 ≤ log ∨ entryAddr log redologEntries ≤ lq)
    (entryApart : le + 16 ≤ log ∨ entryAddr log redologEntries ≤ le)
    (fits : ∀ entry ∈ removeEntries m lq le, entry.Fits) :
    recordListQueueRemove log redologPos lq le m =
      setAll log redologPos (removeEntries m lq le) m := by
  unfold recordListQueueRemove
  rw [(Shm.Returns.bugOn (by simpa using notNull) m).bind_eq, (Shm.Returns.get m).bind_eq]
  unfold removeEntries at fits ⊢
  by_cases sole : m.read 8 (peFirst lq) = le ∧ m.read 8 (leNextOptr le) = 0
  · rw [if_pos sole, if_pos sole]
    simp only [setAll, LogEntry.set, bind_pure]
  · rw [if_neg sole] at fits ⊢
    rw [if_neg sole]
    simp only [setAll, LogEntry.set]
    refine Shm.bind_congr fun stores pos returns => ?_
    rw [(Shm.Returns.get _).bind_eq]
    obtain ⟨_, within⟩ := LogEntry.set_within (fits _ List.mem_cons_self).recordable room returns
    have first : (m.apply stores).read 8 (peFirst lq) = m.read 8 (peFirst lq) :=
      Mem.read_apply_of_within m within (by unfold peFirst; omega)
    have next : (m.apply stores).read 8 (leNextOptr le) = m.read 8 (leNextOptr le) :=
      Mem.read_apply_of_within m within (by unfold leNextOptr; omega)
    rw [first, next]
    split <;> simp only [setAll, LogEntry.set, bind_pure]

/-! ## Lists in memory -/

/-- The places of two list entries do not overlap. -/
def EntriesApart (x y : Nat) : Prop := x + 16 ≤ y ∨ y + 16 ≤ x

instance : Std.Symm EntriesApart := ⟨fun _ _ => Or.symm⟩

/-- The links of the list from `pe_first` on, with its elements in places of their own. -/
structure ListAt (m : Mem) (lq : Nat) (l : List Nat) : Prop where
  first : m.read 8 (peFirst lq) = l.headD 0
  linked : Linked (fun e => m.read 8 (leNextOptr e)) (fun e => m.read 8 (lePrevOptr e)) 0 l 0
  notNull : ∀ e ∈ l, e ≠ 0
  bound : ∀ e ∈ l, e + 16 ≤ 2 ^ 64
  apart : l.Pairwise EntriesApart
  queueApart : ∀ e ∈ l, EntriesApart e lq

/-- A well-formed `list_queue`: the list, and `pe_tail` at its last element. -/
structure WellFormed (m : Mem) (lq : Nat) (l : List Nat) : Prop extends ListAt m lq l where
  tail : l ≠ [] → m.read 8 (peTail lq) = l.getLastD 0

theorem ListAt.last_lt {m : Mem} {lq : Nat} {l : List Nat} (list : ListAt m lq l) :
    l.getLastD 0 < 2 ^ 64 := by
  rcases List.eq_nil_or_concat' l with rfl | ⟨front, last, rfl⟩
  · decide
  · have := list.bound last (by simp)
    rw [List.getLastD_concat]
    omega

theorem ListAt.head_ne_zero {m : Mem} {lq : Nat} {l : List Nat} (list : ListAt m lq l)
    (nonempty : l ≠ []) : m.read 8 (peFirst lq) ≠ 0 := by
  cases l with
  | nil => exact absurd rfl nonempty
  | cons first rest =>
      rw [list.first]
      exact list.notNull first List.mem_cons_self

/-- Stores to a range apart from the list leave it as it is. -/
theorem WellFormed.apply_within {m : Mem} {lq : Nat} {l : List Nat}
    (wellFormed : WellFormed m lq l) {stores : List Store} {low high : Nat}
    (within : ∀ s ∈ stores, s.Within low high)
    (apart : ∀ x ∈ lq :: l, x + 16 ≤ low ∨ high ≤ x) : WellFormed (m.apply stores) lq l := by
  obtain ⟨queueApart, elementsApart⟩ := List.forall_mem_cons.mp apart
  have kept : ∀ {w : Nat}, w + 8 ≤ low ∨ high ≤ w → (m.apply stores).read 8 w = m.read 8 w :=
    fun outside => Mem.read_apply_of_within m within outside
  refine ⟨⟨?_, wellFormed.linked.congr (fun x member => kept ?_) (fun x member => kept ?_),
    wellFormed.notNull, wellFormed.bound, wellFormed.apart, wellFormed.queueApart⟩,
    fun nonempty => ?_⟩
  · rw [kept (by unfold peFirst; omega), wellFormed.first]
  · have := elementsApart x member
    unfold leNextOptr
    omega
  · have := elementsApart x member
    unfold lePrevOptr
    omega
  · rw [kept (by unfold peTail; omega), wellFormed.tail nonempty]

/-! ## Append -/

section Append

variable {b : BuddyAlloc} {m : Mem} {lq e : Nat} {l : List Nat}

/-- The place of a new element: it is not null and apart from the list and the queue. -/
structure Fresh (lq : Nat) (l : List Nat) (e : Nat) : Prop where
  notNull : e ≠ 0
  bound : e + 16 ≤ 2 ^ 64
  apart : ∀ x ∈ l, EntriesApart x e
  queueApart : EntriesApart e lq

/-- The words that an append stores to. -/
def appendStores (lq : Nat) (l : List Nat) (e : Nat) : List Store :=
  [Mem.scalar 8 (lePrevOptr e) (l.getLastD 0),
    match l.getLast? with
    | none => Mem.scalar 8 (peFirst lq) e
    | some last => Mem.scalar 8 (leNextOptr last) e,
    Mem.scalar 8 (leNextOptr e) 0, Mem.scalar 8 (peTail lq) e]

theorem executeEntries_append (wellFormed : WellFormed m lq l) (fresh : Fresh lq l e)
    (queueNotNull : lq ≠ 0) (curObjRecs : Option Nat) :
    (executeEntries b (appendEntries m lq e) curObjRecs).Returns m (appendStores lq l e)
      curObjRecs := by
  have notNull := fresh.notNull
  have second : ∀ m', (executeEntries b [.twoVal (leNextOptr e) 0 (peTail lq) e]
      curObjRecs).Returns m' [Mem.scalar 8 (leNextOptr e) 0, Mem.scalar 8 (peTail lq) e]
      curObjRecs := fun m' =>
    executeEntries_cons (executeEntry_twoVal m' _ 0 e notNull (by unfold peTail; omega))
      (executeEntries_nil _ _)
  unfold appendEntries appendStores
  rcases List.eq_nil_or_concat' l with rfl | ⟨front, last, rfl⟩
  · have empty : m.read 8 (peFirst lq) = 0 := wellFormed.first
    rw [if_pos empty]
    exact executeEntries_cons (executeEntry_twoVal m _ 0 e (by simp [lePrevOptr])
      (by simpa [peFirst] using queueNotNull)) (second _)
  · have lastMember : last ∈ front ++ [last] := by simp
    rw [if_neg (wellFormed.head_ne_zero (by simp)), wellFormed.tail (by simp)]
    simp only [List.getLastD_concat, List.getLast?_concat]
    exact executeEntries_cons (executeEntry_twoVal m _ last e (by simp [lePrevOptr])
      (wellFormed.notNull last lastMember)) (second _)

theorem appendStores_apart (wellFormed : WellFormed m lq l) (fresh : Fresh lq l e) :
    (appendStores lq l e).Pairwise Store.Apart := by
  have queueApart := fresh.queueApart
  unfold EntriesApart at queueApart
  unfold appendStores
  rcases List.eq_nil_or_concat' l with rfl | ⟨front, last, rfl⟩
  · simp only [List.getLast?_nil, List.pairwise_cons, List.forall_mem_cons, List.not_mem_nil,
      IsEmpty.forall_iff, implies_true, and_true, List.Pairwise.nil, Mem.scalar_apart,
      lePrevOptr, leNextOptr, peFirst, peTail]
    omega
  · have lastApart := fresh.apart last (by simp)
    have lastQueue := wellFormed.queueApart last (by simp)
    unfold EntriesApart at lastApart lastQueue
    simp only [List.getLast?_concat, List.pairwise_cons, List.forall_mem_cons, List.not_mem_nil,
      IsEmpty.forall_iff, implies_true, and_true, List.Pairwise.nil, Mem.scalar_apart,
      lePrevOptr, leNextOptr, peTail]
    omega

/-- The stores of an append stay in the new element, the queue and the link of the last one. -/
theorem appendStores_cases {s : Store} (member : s ∈ appendStores lq l e) :
    s.Within e (e + 16) ∨ s.Within lq (lq + 16) ∨
      ∃ last, l.getLast? = some last ∧ s.Within last (last + 8) := by
  unfold appendStores at member
  cases isLast : l.getLast? with
  | none =>
      simp only [isLast, List.mem_cons, List.not_mem_nil, or_false] at member
      rcases member with rfl | rfl | rfl | rfl <;>
        simp only [Mem.scalar_within, lePrevOptr, leNextOptr, peFirst, peTail] <;> omega
  | some last =>
      simp only [isLast, List.mem_cons, List.not_mem_nil, or_false] at member
      simp only [Option.some.injEq, exists_eq_left']
      rcases member with rfl | rfl | rfl | rfl <;>
        simp only [Mem.scalar_within, lePrevOptr, leNextOptr, peTail] <;> omega

/-- An append leaves a well-formed list with the element at its end. -/
theorem wellFormed_append (wellFormed : WellFormed m lq l) (fresh : Fresh lq l e) :
    WellFormed (m.apply (appendStores lq l e)) lq (l ++ [e]) := by
  have apart := appendStores_apart wellFormed fresh
  have queueApart := fresh.queueApart
  have bound := fresh.bound
  have stored : ∀ {w value : Nat}, Mem.scalar 8 w value ∈ appendStores lq l e → value < 256 ^ 8 →
      (m.apply (appendStores lq l e)).read 8 w = value :=
    fun member fits => Mem.read_apply_of_mem apart member fits m
  have kept : ∀ {w : Nat}, (w + 8 ≤ e ∨ e + 16 ≤ w) → (w + 8 ≤ lq ∨ lq + 16 ≤ w) →
      (∀ last, l.getLast? = some last → w + 8 ≤ last ∨ last + 8 ≤ w) →
      (m.apply (appendStores lq l e)).read 8 w = m.read 8 w := by
    intro w elementApart queueApart lastApart
    refine Mem.read_apply_of_disjoint m fun s member => ?_
    rcases appendStores_cases member with within | within | ⟨last, isLast, within⟩
    · unfold Store.Within at within
      omega
    · unfold Store.Within at within
      omega
    · have := lastApart last isLast
      unfold Store.Within at within
      omega
  have elementFits : e < 256 ^ 8 := by omega
  have prevNew : (m.apply (appendStores lq l e)).read 8 (lePrevOptr e) = l.getLastD 0 :=
    stored (by simp [appendStores]) wellFormed.last_lt
  have nextNew : (m.apply (appendStores lq l e)).read 8 (leNextOptr e) = 0 :=
    stored (by simp [appendStores]) (by decide)
  have tailNew : (m.apply (appendStores lq l e)).read 8 (peTail lq) = e :=
    stored (by simp [appendStores]) elementFits
  refine ⟨⟨?_, ?_, ?_, ?_, ?_, ?_⟩, fun _ => ?_⟩
  · rcases List.eq_nil_or_concat' l with rfl | ⟨front, last, rfl⟩
    · exact stored (by simp [appendStores]) elementFits
    · have lastApart := wellFormed.queueApart last (by simp)
      have head : (front ++ [last] ++ [e]).headD 0 = (front ++ [last]).headD 0 := by
        cases front <;> rfl
      rw [head, ← wellFormed.first]
      refine Mem.read_apply_of_disjoint m ?_
      unfold EntriesApart at queueApart lastApart
      simp only [appendStores, List.getLast?_concat, List.forall_mem_cons, List.not_mem_nil,
        IsEmpty.forall_iff, implies_true, and_true, Mem.scalar, Mem.length_leBytes, peFirst,
        peTail, leNextOptr, lePrevOptr]
      omega
  · rcases List.eq_nil_or_concat' l with rfl | ⟨front, last, rfl⟩
    · exact ⟨prevNew, nextNew, trivial⟩
    · have linkedApart : ∀ other ∈ front, EntriesApart other last := fun other member =>
        (List.pairwise_append.mp wellFormed.apart).2.2 other member last (by simp)
      have nextKept : ∀ other ∈ front,
          (m.apply (appendStores lq (front ++ [last]) e)).read 8 (leNextOptr other) =
            m.read 8 (leNextOptr other) := by
        intro other member
        have fromElement := fresh.apart other (by simp [member])
        have fromQueue := wellFormed.queueApart other (by simp [member])
        have fromLast := linkedApart other member
        unfold EntriesApart at fromElement fromQueue fromLast
        simp only [List.getLast?_concat, Option.some.injEq, forall_eq'] at kept
        exact kept (by unfold leNextOptr; omega) (by unfold leNextOptr; omega)
          (by unfold leNextOptr; omega)
      have prevKept : ∀ other ∈ front ++ [last],
          (m.apply (appendStores lq (front ++ [last]) e)).read 8 (lePrevOptr other) =
            m.read 8 (lePrevOptr other) := by
        intro other member
        have fromElement := fresh.apart other member
        have fromQueue := wellFormed.queueApart other member
        have fromLast : other = last ∨ EntriesApart other last := by
          rcases List.mem_append.mp member with inFront | isLast
          · exact .inr (linkedApart other inFront)
          · exact .inl (List.mem_singleton.mp isLast)
        unfold EntriesApart at fromElement fromQueue fromLast
        simp only [List.getLast?_concat, Option.some.injEq, forall_eq'] at kept
        exact kept (by unfold lePrevOptr; omega) (by unfold lePrevOptr; omega)
          (by unfold lePrevOptr; omega)
      rw [List.append_assoc]
      refine wellFormed.linked.push nextKept prevKept
        (stored (by simp [appendStores]) elementFits) nextNew ?_
      rw [prevNew, List.getLastD_concat]
  · simpa [or_imp, forall_and] using ⟨wellFormed.notNull, fresh.notNull⟩
  · intro x member
    rcases List.mem_append.mp member with old | new
    · exact wellFormed.bound x old
    · rw [List.mem_singleton.mp new]
      exact bound
  · rw [List.pairwise_append]
    exact ⟨wellFormed.apart, List.pairwise_singleton _ _, fun x member y isNew => by
      rw [List.mem_singleton.mp isNew]
      exact fresh.apart x member⟩
  · simpa [or_imp, forall_and] using ⟨wellFormed.queueApart, fresh.queueApart⟩
  · rw [tailNew, List.getLastD_concat]

theorem appendEntries_fits (bound : e + 16 ≤ 2 ^ 64)
    (queueBound : lq + 16 ≤ 2 ^ 64) : ∀ entry ∈ appendEntries m lq e, entry.Fits := by
  have last := Mem.read_lt m 8 (peTail lq)
  have second : (LogEntry.twoVal (leNextOptr e) 0 (peTail lq) e).Fits := by
    simp only [LogEntry.Fits, leNextOptr, peTail]
    omega
  unfold appendEntries
  by_cases empty : m.read 8 (peFirst lq) = 0
  · have first : (LogEntry.twoVal (lePrevOptr e) 0 (peFirst lq) e).Fits := by
      simp only [LogEntry.Fits, lePrevOptr, peFirst]
      omega
    rw [if_pos empty]
    simp [first, second]
  · have first : (LogEntry.twoVal (lePrevOptr e) (m.read 8 (peTail lq))
        (leNextOptr (m.read 8 (peTail lq))) e).Fits := by
      simp only [LogEntry.Fits, lePrevOptr, leNextOptr]
      omega
    rw [if_neg empty]
    simp [first, second]

end Append

/-- Executing the entries recorded for an append completes and puts the element at the
end of the list; apart from the log it changes the links of the element, the next link of
the last element and the queue only. -/
theorem append_appends (b : BuddyAlloc) (curObjRecs : Option Nat) {m : Mem} {log lq e : Nat}
    {l : List Nat} (wellFormed : WellFormed m lq l) (fresh : Fresh lq l e)
    (queueNotNull : lq ≠ 0) (queueBound : lq + 16 ≤ 2 ^ 64)
    (logApart : ∀ x ∈ lq :: e :: l, x + 16 ≤ log ∨ entryAddr log redologEntries ≤ x) :
    ∃ m₁ m₂, (recordListQueueAppend log 0 lq e).run m = some (m₁, 2) ∧
      (executeLog b log 2 curObjRecs).run m₁ = some (m₂, curObjRecs) ∧
      WellFormed m₂ lq (l ++ [e]) ∧
      ∀ a, (a < log ∨ entryAddr log redologEntries ≤ a) → (a < e ∨ e + 16 ≤ a) →
        (a < lq ∨ lq + 16 ≤ a) →
        (∀ last, l.getLast? = some last → a < leNextOptr last ∨ leNextOptr last + 8 ≤ a) →
        m₂ a = m a := by
  have fits : ∀ entry ∈ appendEntries m lq e, entry.Fits :=
    appendEntries_fits fresh.bound queueBound
  obtain ⟨first, recorded, firstWithin, executed⟩ :=
    setAll_executeLog fits (by simp [appendEntries, redologEntries]) m
  have record : (recordListQueueAppend log 0 lq e).Returns m first 2 :=
    (recordListQueueAppend_eq m log 0 lq e).trans recorded
  -- the list is as it was when the entries were computed
  have after : WellFormed (m.apply first) lq l := wellFormed.apply_within firstWithin
    (List.forall_mem_cons.mpr
      ⟨logApart lq (by simp), fun x member => logApart x (by simp [member])⟩)
  have queueApart := logApart lq (by simp)
  have elementApart := logApart e (by simp)
  have sameEntries : appendEntries m lq e = appendEntries (m.apply first) lq e := by
    have firstWord : (m.apply first).read 8 (peFirst lq) = m.read 8 (peFirst lq) :=
      Mem.read_apply_of_within m firstWithin (by unfold peFirst; omega)
    have tailWord : (m.apply first).read 8 (peTail lq) = m.read 8 (peTail lq) :=
      Mem.read_apply_of_within m firstWithin (by unfold peTail; omega)
    rw [appendEntries, appendEntries, firstWord, tailWord]
  have effect := @executeEntries_append b _ _ _ _ after fresh queueNotNull curObjRecs
  rw [← sameEntries] at effect
  have outside : ∀ s ∈ appendStores lq l e, s.Outside log (entryAddr log redologEntries) := by
    intro s member
    unfold Store.Outside
    rcases appendStores_cases member with within | within | ⟨last, isLast, within⟩
    · unfold Store.Within at within
      omega
    · unfold Store.Within at within
      omega
    · have := logApart last (by simp [List.mem_of_getLast? isLast])
      unfold Store.Within at within
      omega
  have run : (executeLog b log 2 curObjRecs).Returns (m.apply first) (appendStores lq l e)
      curObjRecs := by
    refine (executed b curObjRecs ?_).trans effect
    rw [effect.stores_eq]
    exact outside
  refine ⟨m.apply first, (m.apply first).apply (appendStores lq l e), record.run_eq, run.run_eq,
    wellFormed_append after fresh, fun a notLog notElement notQueue notLast => ?_⟩
  rw [Mem.apply_of_not_covers, Mem.apply_of_not_covers]
  · exact fun s member => (firstWithin s member).not_covers notLog
  · intro s member
    rcases appendStores_cases member with within | within | ⟨last, isLast, within⟩
    · exact within.not_covers notElement
    · exact within.not_covers notQueue
    · exact within.not_covers (notLast last isLast)

/-- A queue at 4096 with the elements 256, 512 and 768. -/
def threeElements : Mem :=
  Mem.apply (fun _ => 0)
    [Mem.scalar 8 (peFirst 4096) 256, Mem.scalar 8 (peTail 4096) 768,
      Mem.scalar 8 (leNextOptr 256) 512, Mem.scalar 8 (lePrevOptr 512) 256,
      Mem.scalar 8 (leNextOptr 512) 768, Mem.scalar 8 (lePrevOptr 768) 512]

theorem threeElements_wellFormed : WellFormed threeElements 4096 [256, 512, 768] := by
  refine ⟨⟨by decide +kernel, ⟨?_, ?_, ?_, ?_, ?_, ?_, trivial⟩, by decide, by decide, ?_, ?_⟩,
    fun _ => by decide +kernel⟩
  · decide +kernel
  · decide +kernel
  · decide +kernel
  · decide +kernel
  · decide +kernel
  · decide +kernel
  · simp [EntriesApart]
  · simp [EntriesApart]

theorem append_appends_threeElements :
    ∃ m₁ m₂, (recordListQueueAppend 8192 0 4096 1024).run threeElements = some (m₁, 2) ∧
      (executeLog ⟨4096, 4096, 4096, ⟨1, 65536, by decide⟩⟩ 8192 2 none).run m₁ = some (m₂, none) ∧
      WellFormed m₂ 4096 [256, 512, 768, 1024] := by
  obtain ⟨m₁, m₂, recorded, executed, result, _⟩ := append_appends
    ⟨4096, 4096, 4096, ⟨1, 65536, by decide⟩⟩ none threeElements_wellFormed
    ⟨by decide, by decide, by simp [EntriesApart], by simp [EntriesApart]⟩ (by decide) (by decide)
    (show ∀ x ∈ [4096, 1024, 256, 512, 768], x + 16 ≤ 8192 ∨ entryAddr 8192 redologEntries ≤ x by
      decide)
  exact ⟨m₁, m₂, recorded, executed, result⟩

/-! ## Removal -/

section Remove

variable {b : BuddyAlloc} {m : Mem} {lq e : Nat} {l : List Nat}

theorem ListAt.nodup (list : ListAt m lq l) : l.Nodup := by
  refine list.apart.imp fun {x y} apart same => ?_
  unfold EntriesApart at apart
  omega

/-- The neighbours of an element, null at the ends. -/
theorem ListAt.links {front back : List Nat} (list : ListAt m lq (front ++ e :: back)) :
    m.read 8 (lePrevOptr e) = front.getLastD 0 ∧ m.read 8 (leNextOptr e) = back.headD 0 := by
  obtain ⟨_, prevLink, nextLink, _⟩ := linked_append.mp list.linked
  exact ⟨prevLink, nextLink⟩

theorem removeEntries_sole (list : ListAt m lq [e]) :
    removeEntries m lq e = [.val (peFirst lq) 0] := by
  have next := (@ListAt.links _ _ _ [] _ list).2
  have first : m.read 8 (peFirst lq) = e := list.first
  rw [removeEntries, if_pos ⟨first, next⟩]

theorem removeEntries_first {right : Nat} {back : List Nat}
    (list : ListAt m lq (e :: right :: back)) :
    removeEntries m lq e =
      [.twoVal (lePrevOptr right) 0 (leNextOptr 0) right, .val (peFirst lq) right] := by
  obtain ⟨prev, next⟩ := @ListAt.links _ _ _ [] _ list
  have first : m.read 8 (peFirst lq) = e := list.first
  have notNull : right ≠ 0 := list.notNull right (by simp)
  simp only [List.getLastD_nil, List.headD_cons] at prev next
  rw [removeEntries, if_neg (by rw [next]; exact fun sole => notNull sole.2), if_pos first, prev,
    next]

theorem ListAt.first_ne {left : Nat} {front back : List Nat}
    (list : ListAt m lq (front ++ left :: e :: back)) : m.read 8 (peFirst lq) ≠ e := by
  have distinct := list.nodup
  rw [list.first]
  cases front with
  | nil =>
      intro same
      obtain rfl : left = e := same
      simp at distinct
  | cons first rest =>
      intro same
      obtain rfl : first = e := same
      simp at distinct

theorem removeEntries_last {left : Nat} {front : List Nat}
    (list : ListAt m lq (front ++ [left, e])) :
    removeEntries m lq e = [.twoVal (lePrevOptr 0) left (leNextOptr left) 0] := by
  have notFirst := list.first_ne
  rw [List.append_cons front left [e]] at list
  obtain ⟨prev, next⟩ := list.links
  simp only [List.getLastD_concat, List.headD_nil] at prev next
  rw [removeEntries, if_neg fun sole => notFirst sole.1, if_neg notFirst, prev, next]

theorem removeEntries_middle {left right : Nat} {front back : List Nat}
    (list : ListAt m lq (front ++ left :: e :: right :: back)) :
    removeEntries m lq e = [.twoVal (lePrevOptr right) left (leNextOptr left) right] := by
  have notFirst := list.first_ne
  rw [List.append_cons front left (e :: right :: back)] at list
  obtain ⟨prev, next⟩ := list.links
  simp only [List.getLastD_concat, List.headD_cons] at prev next
  rw [removeEntries, if_neg fun sole => notFirst sole.1, if_neg notFirst, prev, next]

/-- The entries of a removal fit into the log. -/
theorem removeEntries_fits (list : ListAt m lq l) (member : e ∈ l) (queueBound : lq + 16 ≤ 2 ^ 64) :
    ∀ entry ∈ removeEntries m lq e, entry.Fits := by
  rcases places_of_mem member with rfl | ⟨right, back, rfl⟩ | ⟨front, left, rfl⟩ |
    ⟨front, left, right, back, rfl⟩
  · rw [removeEntries_sole list]
    simp only [List.forall_mem_singleton, LogEntry.Fits, peFirst]
    omega
  · have rightBound := list.bound right (by simp)
    rw [removeEntries_first list]
    simp only [List.forall_mem_cons, List.not_mem_nil, IsEmpty.forall_iff, implies_true, and_true,
      LogEntry.Fits, lePrevOptr, leNextOptr, peFirst]
    omega
  · have leftBound := list.bound left (by simp)
    rw [removeEntries_last list]
    simp only [List.forall_mem_singleton, LogEntry.Fits, lePrevOptr, leNextOptr]
    omega
  · have rightBound := list.bound right (by simp)
    have leftBound := list.bound left (by simp)
    rw [removeEntries_middle list]
    simp only [List.forall_mem_singleton, LogEntry.Fits, lePrevOptr, leNextOptr]
    omega

theorem length_removeEntries_le (m : Mem) (lq e : Nat) :
    (removeEntries m lq e).length ≤ redologEntries := by
  unfold removeEntries
  split_ifs <;> simp [redologEntries]

/-- Recording a removal writes to the log only; execution goes through the entries that
the list gave rise to. -/
theorem recordListQueueRemove_spec {log : Nat} (wellFormed : WellFormed m lq l) (member : e ∈ l)
    (queueBound : lq + 16 ≤ 2 ^ 64)
    (logApart : ∀ x ∈ lq :: l, x + 16 ≤ log ∨ entryAddr log redologEntries ≤ x) :
    ∃ first, (recordListQueueRemove log 0 lq e).Returns m first (removeEntries m lq e).length ∧
      (∀ s ∈ first, s.Within log (entryAddr log redologEntries)) ∧
      WellFormed (m.apply first) lq l ∧
      ∀ (b : BuddyAlloc) (curObjRecs : Option Nat),
        (∀ s ∈ (executeEntries b (removeEntries m lq e) curObjRecs).stores (m.apply first),
          s.Outside log (entryAddr log redologEntries)) →
        executeLog b log (removeEntries m lq e).length curObjRecs (m.apply first) =
          executeEntries b (removeEntries m lq e) curObjRecs (m.apply first) := by
  have fits := removeEntries_fits wellFormed.toListAt member queueBound
  obtain ⟨first, recorded, within, executed⟩ :=
    setAll_executeLog fits (length_removeEntries_le m lq e) m
  have record := (recordListQueueRemove_eq (wellFormed.notNull e member) (by decide)
    (logApart lq (by simp)) (logApart e (by simp [member])) fits).trans recorded
  exact ⟨first, record, within, wellFormed.apply_within within logApart, executed⟩

theorem listAt_remove_sole : ListAt (m.apply [Mem.scalar 8 (peFirst lq) 0]) lq [] := by
  refine ⟨?_, trivial, by simp, by simp, .nil, by simp⟩
  exact Mem.read_store_self m 8 (peFirst lq) 0

/-- The stores that take out an element between two others. -/
def bypassStores (left right : Nat) : List Store :=
  [Mem.scalar 8 (lePrevOptr right) left, Mem.scalar 8 (leNextOptr left) right]

theorem bypassStores_kept {left right w : Nat} (prevApart : w + 8 ≤ right + 8 ∨ right + 16 ≤ w)
    (nextApart : w + 8 ≤ left ∨ left + 8 ≤ w) :
    (m.apply (bypassStores left right)).read 8 w = m.read 8 w := by
  refine Mem.read_apply_of_disjoint m ?_
  simp only [bypassStores, List.forall_mem_cons, List.not_mem_nil, IsEmpty.forall_iff,
    implies_true, and_true, Mem.scalar, Mem.length_leBytes, lePrevOptr, leNextOptr]
  omega

/-- Taking out an element between two others leaves the rest of the list. -/
theorem ListAt.remove_middle {left right : Nat} {front back : List Nat}
    (list : ListAt m lq (front ++ left :: e :: right :: back)) :
    ListAt (m.apply (bypassStores left right)) lq (front ++ left :: right :: back) := by
  have shorter :
      (front ++ left :: right :: back).Sublist (front ++ left :: e :: right :: back) := by
    refine List.Sublist.append_left ?_ front
    exact List.Sublist.cons_cons _ (List.sublist_cons_self _ _)
  have distinct := list.nodup
  have leftMember : left ∈ front ++ left :: e :: right :: back := by simp
  have rightMember : right ∈ front ++ left :: e :: right :: back := by simp
  have leftRight : left ≠ right := by
    rintro rfl
    simp [List.nodup_append] at distinct
  have placed := list.apart.forall leftMember rightMember leftRight
  unfold EntriesApart at placed
  have leftBound := list.bound left leftMember
  have rightBound := list.bound right rightMember
  have apart : (bypassStores left right).Pairwise Store.Apart := by
    simp only [bypassStores, List.pairwise_cons, List.forall_mem_cons, List.not_mem_nil,
      IsEmpty.forall_iff, implies_true, and_true, List.Pairwise.nil, Mem.scalar_apart, lePrevOptr,
      leNextOptr]
    omega
  have elementApart : ∀ {x y : Nat}, x ∈ front ++ left :: right :: back →
      y ∈ front ++ left :: e :: right :: back → x ≠ y → x + 16 ≤ y ∨ y + 16 ≤ x :=
    fun xMember yMember different => list.apart.forall (shorter.subset xMember) yMember different
  refine ⟨?_, ?_, fun x member => list.notNull x (shorter.subset member),
    fun x member => list.bound x (shorter.subset member), list.apart.sublist shorter,
    fun x member => list.queueApart x (shorter.subset member)⟩
  · have head : (front ++ left :: right :: back).headD 0 =
        (front ++ left :: e :: right :: back).headD 0 := by
      cases front <;> rfl
    have fromLeft := list.queueApart left leftMember
    have fromRight := list.queueApart right rightMember
    unfold EntriesApart at fromLeft fromRight
    rw [head, ← list.first]
    exact bypassStores_kept (by unfold peFirst; omega) (by unfold peFirst; omega)
  · refine list.linked.remove distinct (fun x member different => ?_)
      (fun x member different => ?_) ?_ ?_
    · have fromLeft := elementApart member leftMember different
      have fromRight : x = right ∨ (x + 16 ≤ right ∨ right + 16 ≤ x) := by
        by_cases same : x = right
        · exact .inl same
        · exact .inr (elementApart member rightMember same)
      exact bypassStores_kept (by unfold leNextOptr; omega) (by unfold leNextOptr; omega)
    · have fromRight := elementApart member rightMember different
      have fromLeft : x = left ∨ (x + 16 ≤ left ∨ left + 16 ≤ x) := by
        by_cases same : x = left
        · exact .inl same
        · exact .inr (elementApart member leftMember same)
      exact bypassStores_kept (by unfold lePrevOptr; omega) (by unfold lePrevOptr; omega)
    · exact Mem.read_apply_of_mem apart (by simp [bypassStores]) (by omega) m
    · exact Mem.read_apply_of_mem apart (by simp [bypassStores]) (by omega) m

/-- The element `x` stands next to `e`. -/
def Beside (l : List Nat) (e x : Nat) : Prop :=
  ∃ front back, l = front ++ e :: back ∧ (front.getLast? = some x ∨ back.head? = some x)

/-- Executing the entries recorded for a removal completes, leaves the list without the
element, and changes only the links of the element and its neighbours and the queue. -/
def Removes (b : BuddyAlloc) (curObjRecs : Option Nat) (m : Mem) (log lq : Nat) (l : List Nat)
    (e : Nat) : Prop :=
  ∃ m₁ length m₂ cur, (recordListQueueRemove log 0 lq e).run m = some (m₁, length) ∧
    (executeLog b log length curObjRecs).run m₁ = some (m₂, cur) ∧
    WellFormed m₂ lq (l.erase e) ∧
    ∀ a, (a < log ∨ entryAddr log redologEntries ≤ a) → (a < e ∨ e + 16 ≤ a) →
      (a < lq ∨ lq + 16 ≤ a) → (∀ x, Beside l e x → a < x ∨ x + 16 ≤ a) → m₂ a = m a

variable {log : Nat}

theorem removes_sole (curObjRecs : Option Nat) (wellFormed : WellFormed m lq [e])
    (queueBound : lq + 16 ≤ 2 ^ 64)
    (logApart : ∀ x ∈ lq :: [e], x + 16 ≤ log ∨ entryAddr log redologEntries ≤ x) :
    Removes b curObjRecs m log lq [e] e := by
  obtain ⟨first, record, firstWithin, after, executed⟩ :=
    recordListQueueRemove_spec wellFormed (by simp : e ∈ _) queueBound logApart
  have queueApart := logApart lq (by simp)
  rw [removeEntries_sole wellFormed.toListAt] at record executed
  have effect : (executeEntries b [.val (peFirst lq) 0] curObjRecs).Returns (m.apply first)
      [Mem.scalar 8 (peFirst lq) 0] curObjRecs :=
    executeEntries_cons (executeEntry_val _ _ _ _) (executeEntries_nil _ _)
  have run := (executed b curObjRecs (by
    rw [effect.stores_eq]
    simp only [List.forall_mem_singleton, Store.Outside, Mem.scalar, Mem.length_leBytes, peFirst]
    omega)).trans effect
  refine ⟨_, _, _, _, record.run_eq, Shm.Returns.run_eq run, ?_, ?_⟩
  · rw [List.erase_cons_head]
    exact ⟨listAt_remove_sole, by simp⟩
  · intro a notLog _ notQueue _
    rw [Mem.apply_of_not_covers, Mem.apply_of_not_covers]
    · exact fun s inFirst => (firstWithin s inFirst).not_covers notLog
    · simp only [List.forall_mem_singleton, Mem.scalar_covers, peFirst]
      omega

theorem removes_middle (curObjRecs : Option Nat) {left right : Nat} {front back : List Nat}
    (wellFormed : WellFormed m lq (front ++ left :: e :: right :: back))
    (queueBound : lq + 16 ≤ 2 ^ 64)
    (logApart : ∀ x ∈ lq :: (front ++ left :: e :: right :: back),
      x + 16 ≤ log ∨ entryAddr log redologEntries ≤ x) :
    Removes b curObjRecs m log lq (front ++ left :: e :: right :: back) e := by
  obtain ⟨first, record, firstWithin, after, executed⟩ :=
    recordListQueueRemove_spec wellFormed (by simp : e ∈ _) queueBound logApart
  have leftApart := logApart left (by simp)
  have rightApart := logApart right (by simp)
  have fromLeft := wellFormed.queueApart left (by simp)
  have fromRight := wellFormed.queueApart right (by simp)
  unfold EntriesApart at fromLeft fromRight
  rw [removeEntries_middle wellFormed.toListAt] at record executed
  have effect : (executeEntries b [.twoVal (lePrevOptr right) left (leNextOptr left) right]
      curObjRecs).Returns (m.apply first) (bypassStores left right) curObjRecs :=
    executeEntries_cons (executeEntry_twoVal _ _ _ _ (by simp [lePrevOptr])
      (wellFormed.notNull left (by simp))) (executeEntries_nil _ _)
  have run := (executed b curObjRecs (by
    rw [effect.stores_eq]
    simp only [bypassStores, List.forall_mem_cons, List.not_mem_nil, IsEmpty.forall_iff,
      implies_true, and_true, Store.Outside, Mem.scalar, Mem.length_leBytes, lePrevOptr, leNextOptr]
    omega)).trans effect
  have others : (front ++ left :: e :: right :: back).erase e = front ++ left :: right :: back := by
    have distinct := wellFormed.nodup
    rw [List.append_cons front left] at distinct ⊢
    rw [erase_between distinct, ← List.append_cons]
  refine ⟨_, _, _, _, record.run_eq, Shm.Returns.run_eq run, ?_, ?_⟩
  · rw [others]
    refine ⟨after.remove_middle, fun _ => ?_⟩
    have sameLast : (front ++ left :: right :: back).getLastD 0 =
        (front ++ left :: e :: right :: back).getLastD 0 := by
      simp [List.getLastD_eq_getLast?, List.getLast?_append, List.getLast?_cons]
    rw [bypassStores_kept (by unfold peTail; omega) (by unfold peTail; omega), sameLast]
    exact after.tail (by simp)
  · intro a notLog _ _ notBeside
    have notLeft := notBeside left ⟨front ++ [left], right :: back, by simp, .inl (by simp)⟩
    have notRight := notBeside right ⟨front ++ [left], right :: back, by simp, .inr rfl⟩
    rw [Mem.apply_of_not_covers, Mem.apply_of_not_covers]
    · exact fun s inFirst => (firstWithin s inFirst).not_covers notLog
    · simp only [bypassStores, List.forall_mem_cons, List.not_mem_nil, IsEmpty.forall_iff,
        implies_true, and_true, Mem.scalar_covers, lePrevOptr, leNextOptr]
      omega

/-- The second store of the entry for the first of several would go to the null pointer. -/
theorem not_removes_first (curObjRecs : Option Nat) {right : Nat} {back : List Nat}
    (wellFormed : WellFormed m lq (e :: right :: back)) (queueBound : lq + 16 ≤ 2 ^ 64)
    (logApart : ∀ x ∈ lq :: e :: right :: back,
      x + 16 ≤ log ∨ entryAddr log redologEntries ≤ x) :
    ¬ Removes b curObjRecs m log lq (e :: right :: back) e := by
  obtain ⟨first, record, firstWithin, after, executed⟩ :=
    recordListQueueRemove_spec wellFormed (by simp : e ∈ _) queueBound logApart
  have rightApart := logApart right (by simp)
  rw [removeEntries_first wellFormed.toListAt] at record executed
  have effect : executeEntries b [.twoVal (lePrevOptr right) 0 (leNextOptr 0) right,
      .val (peFirst lq) right] curObjRecs (m.apply first) =
        ([Mem.scalar 8 (lePrevOptr right) 0], none) := by
    exact Shm.bind_of_none (executeEntry_twoVal_null _ _ _ _ (by simp [lePrevOptr]))
  have run := (executed b curObjRecs (by
    rw [Shm.stores, effect]
    simp only [List.forall_mem_singleton, Store.Outside, Mem.scalar, Mem.length_leBytes, lePrevOptr]
    omega)).trans effect
  rintro ⟨m₁, length, m₂, cur, recorded, completes, _⟩
  rw [record.run_eq] at recorded
  obtain ⟨rfl, rfl⟩ := Prod.mk.inj (Option.some.inj recorded)
  have stops : (executeLog b log [LogEntry.twoVal (lePrevOptr right) 0 (leNextOptr 0) right,
      .val (peFirst lq) right].length curObjRecs).run (m.apply first) = none := by
    rw [Shm.run, run]
    rfl
  rw [stops] at completes
  simp at completes

/-- After the removal of the last of several, `pe_tail` still leads to it. -/
theorem not_removes_last (curObjRecs : Option Nat) {left : Nat} {front : List Nat}
    (wellFormed : WellFormed m lq (front ++ [left, e])) (queueLow : 16 ≤ lq)
    (queueBound : lq + 16 ≤ 2 ^ 64) (logLow : 16 ≤ log)
    (logApart : ∀ x ∈ lq :: (front ++ [left, e]),
      x + 16 ≤ log ∨ entryAddr log redologEntries ≤ x) :
    ¬ Removes b curObjRecs m log lq (front ++ [left, e]) e := by
  obtain ⟨first, record, firstWithin, after, executed⟩ :=
    recordListQueueRemove_spec wellFormed (by simp : e ∈ _) queueBound logApart
  have leftApart := logApart left (by simp)
  have fromLeft := wellFormed.queueApart left (by simp)
  unfold EntriesApart at fromLeft
  have absent : e ∉ front ++ [left] := by
    have distinct := wellFormed.nodup
    rw [List.append_cons front left, List.nodup_append] at distinct
    exact fun inFront => distinct.2.2 e inFront e (by simp) rfl
  rw [removeEntries_last wellFormed.toListAt] at record executed
  have effect : (executeEntries b [.twoVal (lePrevOptr 0) left (leNextOptr left) 0]
      curObjRecs).Returns (m.apply first)
        [Mem.scalar 8 (lePrevOptr 0) left, Mem.scalar 8 (leNextOptr left) 0] curObjRecs :=
    executeEntries_cons (executeEntry_twoVal _ _ _ _ (by simp [lePrevOptr])
      (wellFormed.notNull left (by simp))) (executeEntries_nil _ _)
  have run := (executed b curObjRecs (by
    rw [effect.stores_eq]
    simp only [List.forall_mem_cons, List.not_mem_nil, IsEmpty.forall_iff, implies_true, and_true,
      Store.Outside, Mem.scalar, Mem.length_leBytes, lePrevOptr, leNextOptr]
    omega)).trans effect
  rintro ⟨m₁, length, m₂, cur, recorded, completes, result, _⟩
  rw [record.run_eq] at recorded
  obtain ⟨rfl, rfl⟩ := Prod.mk.inj (Option.some.inj recorded)
  rw [Shm.Returns.run_eq run] at completes
  obtain ⟨rfl, rfl⟩ := Prod.mk.inj (Option.some.inj completes)
  rw [List.append_cons front left, List.erase_append_right _ absent, List.erase_cons_head,
    List.append_nil] at result
  have tail := result.tail (by simp)
  rw [List.getLastD_concat, Mem.read_apply_of_disjoint, after.tail (by simp),
    List.append_cons front left, List.getLastD_concat] at tail
  · exact absent (by simp [tail])
  · simp only [List.forall_mem_cons, List.not_mem_nil, IsEmpty.forall_iff, implies_true, and_true,
      Mem.scalar, Mem.length_leBytes, lePrevOptr, leNextOptr, peTail]
    omega

end Remove

/-- A removal goes right exactly for a sole element and for elements that are neither the
first nor the last. The first of several stops at a `BUG_ON` for the null link before it; the
last of several is left in `pe_tail`. The queue and the log are not in the first bytes of the
mapping, where a null pointer leads. -/
theorem remove_removes_iff (b : BuddyAlloc) (curObjRecs : Option Nat) {m : Mem} {log lq e : Nat}
    {l : List Nat} (wellFormed : WellFormed m lq l) (member : e ∈ l) (queueLow : 16 ≤ lq)
    (queueBound : lq + 16 ≤ 2 ^ 64) (logLow : 16 ≤ log)
    (logApart : ∀ x ∈ lq :: l, x + 16 ≤ log ∨ entryAddr log redologEntries ≤ x) :
    Removes b curObjRecs m log lq l e ↔
      l = [e] ∨ (l.head? ≠ some e ∧ l.getLast? ≠ some e) := by
  have distinct := wellFormed.nodup
  rcases places_of_mem member with rfl | ⟨right, back, rfl⟩ | ⟨front, left, rfl⟩ |
    ⟨front, left, right, back, rfl⟩
  · exact iff_of_true (removes_sole curObjRecs wellFormed queueBound logApart) (.inl rfl)
  · refine iff_of_false (not_removes_first curObjRecs wellFormed queueBound logApart) ?_
    simp
  · refine iff_of_false
      (not_removes_last curObjRecs wellFormed queueLow queueBound logLow logApart) ?_
    rintro (sole | ⟨_, notLast⟩)
    · have length := congrArg List.length sole
      simp at length
    · exact notLast (by rw [List.append_cons, List.getLast?_concat])
  · refine iff_of_true (removes_middle curObjRecs wellFormed queueBound logApart) (.inr ⟨?_, ?_⟩)
    · rw [List.append_cons front left, List.nodup_append] at distinct
      intro isFirst
      rw [List.append_cons front left, List.head?_append_of_ne_nil _ (by simp)] at isFirst
      exact distinct.2.2 e (List.mem_of_head? isFirst) e (by simp) rfl
    · intro isLast
      rw [List.append_cons front left, List.append_cons _ e,
        List.getLast?_append_of_ne_nil _ (by simp)] at isLast
      rw [List.append_cons front left, List.append_cons _ e, List.nodup_append] at distinct
      exact distinct.2.2 e (by simp) e (List.mem_of_getLast? isLast) rfl

theorem remove_removes_iff_threeElements :
    Removes ⟨4096, 4096, 4096, ⟨1, 65536, by decide⟩⟩ none threeElements 8192 4096 [256, 512, 768]
      512 :=
  (remove_removes_iff _ none threeElements_wellFormed (by decide) (by decide) (by decide)
    (by decide)
    (show ∀ x ∈ [4096, 256, 512, 768], x + 16 ≤ 8192 ∨ entryAddr 8192 redologEntries ≤ x by
      decide)).mpr (.inr (by decide))

/-- Removing 256 from a list that starts with it stops at a `BUG_ON`; removing 768 from its
end leaves it in `pe_tail` and stores to offset 8. -/
theorem remove_ends_of_threeElements :
    (recordListQueueRemove 8192 0 4096 256 threeElements).2 = some 2 ∧
      (executeLog ⟨4096, 4096, 4096, ⟨1, 65536, by decide⟩⟩ 8192 2 none
        ((recordListQueueRemove 8192 0 4096 256).final threeElements)).2 = none ∧
    (recordListQueueRemove 8192 0 4096 768 threeElements).2 = some 1 ∧
      (let after := (executeLog ⟨4096, 4096, 4096, ⟨1, 65536, by decide⟩⟩ 8192 1 none).final
        ((recordListQueueRemove 8192 0 4096 768).final threeElements)
      after.read 8 (leNextOptr 512) = 0 ∧ after.read 8 (peTail 4096) = 768 ∧
        threeElements.read 8 8 = 0 ∧ after.read 8 8 = 512) := by
  decide +kernel

end Lupin.Alloc
