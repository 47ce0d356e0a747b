import Lupin.Log.Execute

/-!
# Recovering a committed log

What the setters and `set_commit_log_entry` leave in the array is what
`recover_with_redolog` finds there, whatever the array held before.
-/

namespace Lupin.Log

open Lupin.Memory Lupin.Buddy

/-! ## Writing a log -/

section Write

variable {log pos : Nat}

/-- The stores of `advance`. -/
def nextBlank (log pos : Nat) : List Store :=
  if pos + 1 < redologEntries then blankEntry (entryAddr log (pos + 1)) else []

theorem advance_returns (m : Mem) : (advance log pos).Returns m (nextBlank log pos) (pos + 1) := by
  unfold advance nextBlank
  split
  · exact Shm.Returns.putAll_pure m _ _
  · exact Shm.Returns.pure m (pos + 1)

theorem nextBlank_within :
    ∀ s ∈ nextBlank log pos, s.Within (entryAddr log (pos + 1)) (entryAddr log redologEntries) := by
  unfold nextBlank
  split
  · rename_i room
    have below : entryAddr log (pos + 1 + 1) ≤ entryAddr log redologEntries := entryAddr_le room
    rw [entryAddr_succ] at below
    unfold sizeofLogEntry at below
    intro s member
    obtain ⟨i, inRange, rfl⟩ := List.mem_map.mp member
    have := List.mem_range.mp inRange
    exact Mem.scalar_within.mpr ⟨by omega, by omega⟩
  · simp

/-- A setter stores its entry and blanks the one behind. -/
theorem LogEntry.set_returns {entry : LogEntry} (recordable : entry.Recordable)
    (room : pos < redologEntries) (m : Mem) :
    (entry.set log pos).Returns m (entry.stores (entryAddr log pos) ++ nextBlank log pos)
      (pos + 1) := by
  rw [LogEntry.set_eq recordable]
  exact .bugOn_bind (by simpa using room.ne) (.put_bind (.putAll_bind (advance_returns _)))

/-- A setter stays in the array. -/
theorem LogEntry.set_within {entry : LogEntry} (recordable : entry.Recordable)
    (room : pos < redologEntries) {m : Mem} {stores : List Store} {pos' : Nat}
    (returns : (entry.set log pos).Returns m stores pos') :
    pos' = pos + 1 ∧ ∀ s ∈ stores, s.Within log (entryAddr log redologEntries) := by
  obtain ⟨rfl, rfl⟩ := returns.unique (LogEntry.set_returns recordable room m)
  have inside : entryAddr log pos + sizeofLogEntry ≤ entryAddr log redologEntries := by
    rw [← entryAddr_succ]
    exact entryAddr_le room
  refine ⟨rfl, List.forall_mem_append.mpr ⟨fun s member => ?_, fun s member => ?_⟩⟩
  · exact (LogEntry.stores_within recordable.readable _ s member).mono (Nat.le_add_right _ _) inside
  · exact (nextBlank_within s member).mono (Nat.le_add_right _ _) le_rfl

/-- A log is in the array as its setters were called. -/
def LogWritten (m : Mem) (log : Nat) (entries : List LogEntry) : Prop :=
  ∀ i entry, entries[i]? = some entry → Written m (entryAddr log i) entry

/-- What the setters leave: they store from their position on only, and their entries are
in the array. -/
theorem setAll_logged {entries : List LogEntry}
    (recordable : ∀ entry ∈ entries, entry.Recordable)
    (room : pos + entries.length ≤ redologEntries) (m : Mem) :
    ∃ stores, (setAll log pos entries).Returns m stores (pos + entries.length) ∧
      (∀ s ∈ stores, s.Within (entryAddr log pos) (entryAddr log redologEntries)) ∧
      ∀ i entry, entries[i]? = some entry →
        Written (m.apply stores) (entryAddr log (pos + i)) entry.logged := by
  induction entries generalizing pos m with
  | nil => exact ⟨[], Shm.Returns.pure m pos, by simp, by simp⟩
  | cons entry rest inductionHypothesis =>
      rw [List.length_cons] at room ⊢
      have first := recordable entry List.mem_cons_self
      obtain ⟨later, returns, laterWithin, written⟩ := inductionHypothesis
        (fun e member => recordable e (List.mem_cons_of_mem _ member))
        (by omega : pos + 1 + rest.length ≤ redologEntries)
        (m.apply (entry.stores (entryAddr log pos) ++ nextBlank log pos))
      refine ⟨(entry.stores (entryAddr log pos) ++ nextBlank log pos) ++ later, ?_, ?_, ?_⟩
      · have steps : pos + (rest.length + 1) = pos + 1 + rest.length := by omega
        rw [steps]
        exact (entry.set_returns first (by omega) m).bind returns
      · have inside : entryAddr log pos + sizeofLogEntry ≤ entryAddr log redologEntries := by
          rw [← entryAddr_succ]
          exact entryAddr_le (by omega)
        have start : entryAddr log pos ≤ entryAddr log (pos + 1) := entryAddr_le (by omega)
        simp only [List.forall_mem_append]
        exact ⟨⟨fun s member => (entry.stores_within first.readable _ s member).mono le_rfl inside,
          fun s member => (nextBlank_within s member).mono start le_rfl⟩,
          fun s member => (laterWithin s member).mono start le_rfl⟩
      · rintro (_ | i) found isEntry
        · obtain rfl : entry = found := by simpa using isEntry
          -- the blank and the later entries lie behind
          rw [Mem.apply_append, Mem.apply_append, Nat.add_zero]
          have blankWithin : ∀ s ∈ nextBlank log pos,
              s.Within (entryAddr log (pos + 1)) (entryAddr log redologEntries) := nextBlank_within
          rw [entryAddr_succ] at laterWithin blankWithin
          exact ((LogEntry.written first m _).apply_behind first.logged_readable
            blankWithin).apply_behind first.logged_readable laterWithin
        · rw [Mem.apply_append, ← Nat.add_assoc, Nat.add_right_comm]
          exact written i found (by simpa using isEntry)

theorem setAll_spec {entries : List LogEntry} (fits : ∀ entry ∈ entries, entry.Fits)
    (room : pos + entries.length ≤ redologEntries) (m : Mem) :
    ∃ stores, (setAll log pos entries).Returns m stores (pos + entries.length) ∧
      (∀ s ∈ stores, s.Within (entryAddr log pos) (entryAddr log redologEntries)) ∧
      ∀ i entry, entries[i]? = some entry →
        Written (m.apply stores) (entryAddr log (pos + i)) entry := by
  obtain ⟨stores, returns, within, written⟩ :=
    @setAll_logged log pos _ (fun entry member => (fits entry member).recordable) room m
  refine ⟨stores, returns, within, fun i entry isEntry => ?_⟩
  rw [← (fits entry (List.mem_of_getElem? isEntry)).logged_eq]
  exact written i entry isEntry

/-- Recorded entries are executed as they were recorded. -/
theorem setAll_executeLog {entries : List LogEntry} (fits : ∀ entry ∈ entries, entry.Fits)
    (room : entries.length ≤ redologEntries) (m : Mem) :
    ∃ stores, (setAll log 0 entries).Returns m stores entries.length ∧
      (∀ s ∈ stores, s.Within log (entryAddr log redologEntries)) ∧
      ∀ (b : BuddyAlloc) (curObjRecs : Option Nat),
        (∀ s ∈ (executeEntries b entries curObjRecs).stores (m.apply stores),
          s.Outside log (entryAddr log redologEntries)) →
        executeLog b log entries.length curObjRecs (m.apply stores) =
          executeEntries b entries curObjRecs (m.apply stores) := by
  obtain ⟨stores, recorded, within, written⟩ :=
    setAll_spec fits (by omega : 0 + entries.length ≤ redologEntries) m
  rw [Nat.zero_add] at recorded
  refine ⟨stores, recorded, within, fun b curObjRecs outside => ?_⟩
  have executed := executeLogLoop_eq (fun entry member => (fits entry member).readable) written
    (fun s member => (outside s member).mono (Nat.le_add_right _ _) (entryAddr_le (by omega))) 0
  simpa only [executeLog, Nat.add_zero, executeLogLoop, bind_pure] using executed

/-- What `set_commit_log_entry` leaves: a `COMMIT` with the checksum of the entries before. -/
theorem setCommitLogEntry_spec (room : pos < redologEntries) (m : Mem) :
    ∃ stores, (setCommitLogEntry log pos).Returns m stores (pos + 1) ∧
      (∀ s ∈ stores, s.Within (entryAddr log pos) (entryAddr log redologEntries)) ∧
      (m.apply stores).read 4 (entryAddr log pos) = EntryType.commit.code ∧
      (m.apply stores).read 8 (entryAddr log pos + 8) =
        utilChecksumCompute m log (pos * sizeofLogEntry) none 0 := by
  have tagOutside : ∀ b, log ≤ b → b < log + pos * sizeofLogEntry →
      m.store (Mem.scalar 4 (entryAddr log pos) EntryType.commit.code) b = m b := by
    intro b _ below
    refine Mem.store_of_not_covers fun covers => ?_
    have := (Mem.scalar_covers.mp covers).1
    unfold entryAddr at this
    rw [Nat.mul_comm] at below
    omega
  have sameSum : utilChecksumCompute
      (m.store (Mem.scalar 4 (entryAddr log pos) EntryType.commit.code)) log (pos * sizeofLogEntry)
      none 0 = utilChecksumCompute m log (pos * sizeofLogEntry) none 0 :=
    utilChecksumCompute_congr (by simp) (by simp) (by unfold sizeofLogEntry; omega) tagOutside 0
  have sumFits := utilChecksumCompute_lt m log (pos * sizeofLogEntry) none 0
  generalize utilChecksumCompute m log (pos * sizeofLogEntry) none 0 = csum at sameSum sumFits ⊢
  have below : entryAddr log (pos + 1) ≤ entryAddr log redologEntries := entryAddr_le room
  have behind : ∀ s ∈ nextBlank log pos,
      s.Within (entryAddr log (pos + 1)) (entryAddr log redologEntries) := nextBlank_within
  rw [entryAddr_succ] at below behind
  unfold sizeofLogEntry at below behind
  refine ⟨Mem.scalar 4 (entryAddr log pos) EntryType.commit.code ::
    Mem.scalar 8 (entryAddr log pos + 8) csum :: nextBlank log pos, ?_, ?_, ?_, ?_⟩
  · refine .bugOn_bind (by simpa using room.ne) (.put_bind (.get_bind ?_))
    rw [sameSum]
    exact .put_bind (advance_returns _)
  · simp only [List.forall_mem_cons, Mem.scalar_within]
    exact ⟨by omega, by omega, fun s member => (behind s member).mono (by omega) le_rfl⟩
  · rw [Mem.apply_cons, Mem.apply_cons, Mem.read_apply_of_disjoint, Mem.read_store_of_disjoint,
      Mem.read_store_self]
    · rfl
    · exact .inl (by simp only [Mem.scalar]; omega)
    · intro s member
      have := (behind s member).1
      omega
  · rw [Mem.apply_cons, Mem.apply_cons, Mem.read_apply_of_disjoint, Mem.read_store_self,
      Nat.mod_eq_of_lt sumFits]
    intro s member
    have := (behind s member).1
    omega

/-- The calls that record and commit a log. -/
def commitLog (log : Nat) (entries : List LogEntry) : Shm Nat := do
  let redologPos ← setAll log 0 entries
  setCommitLogEntry log redologPos

/-- The array holds this log, committed. -/
structure Committed (m : Mem) (log : Nat) (entries : List LogEntry) : Prop where
  written : LogWritten m log entries
  commit : m.read 4 (entryAddr log entries.length) = EntryType.commit.code
  checksum : m.read 8 (entryAddr log entries.length + 8) =
    utilChecksumCompute m log (entries.length * sizeofLogEntry) none 0

theorem commitLog_logged {entries : List LogEntry}
    (recordable : ∀ entry ∈ entries, entry.Recordable) (few : entries.length < redologEntries)
    (m : Mem) :
    ∃ stores, (commitLog log entries).Returns m stores (entries.length + 1) ∧
      (∀ s ∈ stores, s.Within log (entryAddr log redologEntries)) ∧
      Committed (m.apply stores) log (entries.map LogEntry.logged) := by
  obtain ⟨first, recorded, firstWithin, written⟩ :=
    setAll_logged recordable (by omega : 0 + entries.length ≤ redologEntries) m
  obtain ⟨second, committed, secondWithin, commit, checksum⟩ :=
    setCommitLogEntry_spec few (m.apply first)
  rw [Nat.zero_add] at recorded
  -- the commit is stored behind the entries
  have behind : ∀ b, b < entryAddr log entries.length →
      (m.apply first).apply second b = m.apply first b := fun b before =>
    Mem.apply_of_not_covers (fun s member => (secondWithin s member).not_covers (.inl before)) _
  refine ⟨first ++ second, recorded.bind committed, ?_, ?_⟩
  · simp only [List.forall_mem_append]
    exact ⟨firstWithin, fun s member => (secondWithin s member).mono (Nat.le_add_right _ _) le_rfl⟩
  · rw [Mem.apply_append]
    refine ⟨fun i logged isLogged => ?_, by rw [List.length_map]; exact commit, ?_⟩
    · obtain ⟨entry, isEntry, rfl⟩ :=
        Option.map_eq_some_iff.mp ((List.getElem?_map ..).symm.trans isLogged)
      have bound : i + 1 ≤ entries.length := (List.getElem?_eq_some_iff.mp isEntry).1
      have isWritten := written i entry isEntry
      rw [Nat.zero_add] at isWritten
      refine isWritten.apply_behind
        (recordable entry (List.mem_of_getElem? isEntry)).logged_readable fun s member =>
          (secondWithin s member).mono ?_ le_rfl
      rw [← entryAddr_succ]
      exact entryAddr_le bound
    · rw [List.length_map, checksum]
      refine utilChecksumCompute_congr (by simp) (by simp) (by unfold sizeofLogEntry; omega)
        (fun b _ below => (behind b ?_).symm) 0
      unfold entryAddr
      rw [Nat.mul_comm]
      exact below

theorem commitLog_spec {entries : List LogEntry} (fits : ∀ entry ∈ entries, entry.Fits)
    (few : entries.length < redologEntries) (m : Mem) :
    ∃ stores, (commitLog log entries).Returns m stores (entries.length + 1) ∧
      (∀ s ∈ stores, s.Within log (entryAddr log redologEntries)) ∧
      Committed (m.apply stores) log entries := by
  have same : entries.map LogEntry.logged = entries :=
    List.map_congr_left (fun entry member => (fits entry member).logged_eq) |>.trans
      (List.map_id entries)
  obtain ⟨stores, returns, within, committed⟩ :=
    @commitLog_logged log _ (fun entry member => (fits entry member).recordable) few m
  exact ⟨stores, returns, within, same ▸ committed⟩

end Write

/-! ## Recovery -/

section Recover

variable {m : Mem} {log : Nat}

/-- The scan goes past entries that are no `COMMIT`. -/
theorem findCommit_skip {count : Nat} (skipped i : Nat) {outcome : Except Nat (Option Nat)}
    (others : ∀ j, i ≤ j → j < i + skipped →
      m.read 4 (entryAddr log j) ≠ EntryType.commit.code)
    (rest : (findCommit log count (i + skipped)).Returns m [] outcome) :
    (findCommit log (skipped + count) i).Returns m [] outcome := by
  induction skipped generalizing i with
  | zero => simpa using rest
  | succ skipped inductionHypothesis =>
      rw [Nat.succ_add, findCommit]
      refine .get_bind ?_
      rw [if_neg (others i le_rfl (by omega))]
      refine inductionHypothesis (i + 1) (fun j low high => others j (by omega) (by omega)) ?_
      rw [Nat.add_assoc, Nat.add_comm 1]
      exact rest

/-- The scan ends at a `COMMIT` with the checksum of the entries before. -/
theorem findCommit_found {count i : Nat}
    (isCommit : m.read 4 (entryAddr log i) = EntryType.commit.code)
    (checked : m.read 8 (entryAddr log i + 8) =
      utilChecksumCompute m log (i * sizeofLogEntry) none 0) :
    (findCommit log (count + 1) i).Returns m [] (.ok (some i)) := by
  have sameSum : utilChecksumCompute m log (sizeofLogEntry * i) (some (entryAddr log i + 8)) 0 =
      utilChecksumCompute m log (i * sizeofLogEntry) none 0 := by
    rw [Nat.mul_comm]
    refine utilChecksumCompute_congr (fun c here => ?_) (by simp)
      (by unfold sizeofLogEntry; omega) (fun _ _ _ => rfl) 0
    obtain rfl := Option.some.inj here
    unfold entryAddr
    rw [Nat.mul_comm]
    omega
  have right : (utilChecksum log (sizeofLogEntry * i) (entryAddr log i + 8) false 0).Returns m []
      true := by
    refine .bugOn_bind (by simp [sizeofLogEntry]; omega) (.get_bind ?_)
    rw [sameSum, checked]
    simp only [Bool.false_eq_true, if_false, beq_self_eq_true]
    exact Shm.Returns.pure m true
  rw [findCommit]
  refine .get_bind ?_
  rw [if_pos isCommit]
  exact Shm.Returns.bind right (Shm.Returns.pure m _)

theorem Committed.readEntry_eq {entries : List LogEntry} (committed : Committed m log entries)
    (readable : ∀ entry ∈ entries, entry.Readable) {i : Nat} {entry : LogEntry}
    (isEntry : entries[i]? = some entry) : readEntry m (entryAddr log i) = some entry :=
  (committed.written i entry isEntry).readEntry_eq (readable entry (List.mem_of_getElem? isEntry))

/-- No tag of an entry is that of a `COMMIT`. -/
theorem Committed.tag_ne {entries : List LogEntry} (committed : Committed m log entries) {i : Nat}
    (bound : i < entries.length) : m.read 4 (entryAddr log i) ≠ EntryType.commit.code := by
  have tag := (committed.written i entries[i] (List.getElem?_eq_getElem bound) _
    List.mem_cons_self).read_eq (EntryType.code_lt _)
  rw [tag]
  cases entries[i] <;> simp [LogEntry.tp, EntryType.code]

theorem Committed.findCommit_returns {entries : List LogEntry}
    (committed : Committed m log entries) (few : entries.length < redologEntries) :
    (findCommit log redologEntries 0).Returns m [] (.ok (some entries.length)) := by
  obtain ⟨rest, whole⟩ : ∃ rest, redologEntries = entries.length + (rest + 1) :=
    ⟨redologEntries - entries.length - 1, by omega⟩
  rw [whole]
  refine findCommit_skip entries.length 0 (fun j _ bound => committed.tag_ne (by omega)) ?_
  rw [Nat.zero_add]
  exact findCommit_found committed.commit committed.checksum

/-- Recovery of a committed log is the execution of its entries. -/
theorem Committed.recover_eq {entries : List LogEntry} (committed : Committed m log entries)
    (few : entries.length < redologEntries) (b : BuddyAlloc) (curObjRecs : Option Nat) :
    recoverWithRedolog b log curObjRecs m =
      (do
        let cur ← executeLog b log entries.length curObjRecs
        pure (0, cur) : Shm (Nat × Option Nat)) m := by
  rw [recoverWithRedolog, (committed.findCommit_returns few).bind_eq]

/-- The entries of a committed log are executed one after the other; the `COMMIT` itself does
nothing. -/
theorem Committed.execute_eq {entries : List LogEntry} (committed : Committed m log entries)
    (readable : ∀ entry ∈ entries, entry.Readable) (few : entries.length < redologEntries)
    {b : BuddyAlloc} {curObjRecs : Option Nat}
    (outside : ∀ s ∈ (executeEntries b entries curObjRecs).stores m,
      s.Outside log (entryAddr log redologEntries)) :
    executeLog b log entries.length curObjRecs m = executeEntries b entries curObjRecs m ∧
      executeLog b log (entries.length + 1) curObjRecs m =
        executeEntries b entries curObjRecs m := by
  have written : ∀ i entry, entries[i]? = some entry →
      Written m (entryAddr log (0 + i)) entry := by
    intro i entry isEntry
    rw [Nat.zero_add]
    exact committed.written i entry isEntry
  have before : ∀ s ∈ (executeEntries b entries curObjRecs).stores m,
      s.Outside (entryAddr log 0) (entryAddr log (0 + entries.length)) := fun s member =>
    (outside s member).mono (Nat.le_add_right _ _) (entryAddr_le (by omega))
  constructor
  · have executed := executeLogLoop_eq readable written before 0
    simpa only [executeLog, Nat.add_zero, executeLogLoop, bind_pure] using executed
  · rw [executeLog, executeLogLoop_eq readable written before 1]
    have nothing : (executeEntries b entries curObjRecs >>= fun cur =>
        executeLogLoop b log 1 (0 + entries.length) cur) m =
        (executeEntries b entries curObjRecs >>= pure) m := by
      refine Shm.bind_congr fun stores cur returns => ?_
      rw [returns.stores_eq] at outside
      have inside : entryAddr log entries.length + 4 ≤ entryAddr log redologEntries :=
        le_trans (by rw [entryAddr_succ]; unfold sizeofLogEntry; omega) (entryAddr_le few)
      have tag :
          (m.apply stores).read 4 (entryAddr log entries.length) = EntryType.commit.code := by
        rw [← committed.commit]
        exact Mem.read_congr fun a low high => Mem.apply_of_outside outside
          ((Nat.le_add_right _ _).trans low) (by omega) m
      rw [executeLogLoop, (Shm.Returns.get _).bind_eq, Nat.zero_add, readEntry, tag]
      rfl
    rw [nothing, bind_pure]

end Recover

/-- A committed log is recovered as it was recorded: whatever the array held before, the
scan ends at the `COMMIT` just written with the right checksum, every entry is read with
the fields it was recorded with, and recovery is the execution of these entries. -/
theorem committed_log_recovered (b : BuddyAlloc) (log : Nat) (prior : Mem)
    {entries : List LogEntry} (fits : ∀ entry ∈ entries, entry.Fits)
    (few : entries.length ≤ redologEntries - 1) :
    ∃ m, (commitLog log entries).run prior = some (m, entries.length + 1) ∧
      (findCommit log redologEntries 0).run m = some (m, .ok (some entries.length)) ∧
      (∀ i (bound : i < entries.length), readEntry m (entryAddr log i) = some entries[i]) ∧
      ∀ curObjRecs, recoverWithRedolog b log curObjRecs m =
        (do
          let cur ← executeLog b log entries.length curObjRecs
          pure (0, cur) : Shm (Nat × Option Nat)) m := by
  have room : entries.length < redologEntries := by
    unfold redologEntries at *
    omega
  obtain ⟨stores, returns, _, committed⟩ := commitLog_spec fits room prior
  exact ⟨prior.apply stores, returns.run_eq, (committed.findCommit_returns room).run_eq,
    fun i bound => committed.readEntry_eq (fun entry member => (fits entry member).readable)
      (List.getElem?_eq_getElem bound),
    fun curObjRecs => committed.recover_eq room b curObjRecs⟩

theorem committed_log_recovered_alloc_name :
    ∃ m, (commitLog 4096 [.buddyAlloc ⟨2, 2⟩, .str 64 [97, 0]]).run (fun _ => 9) = some (m, 3) ∧
      (findCommit 4096 redologEntries 0).run m = some (m, .ok (some 2)) ∧
      readEntry m (entryAddr 4096 1) = some (.str 64 [97, 0]) := by
  have isProgId : IsProgId [97, 0] := ⟨⟨[97], rfl, by decide⟩, by decide⟩
  obtain ⟨m, recorded, found, entries, _⟩ := committed_log_recovered
    ⟨4096, 4096, 4096, ⟨1, 65536, by decide⟩⟩ 4096 (fun _ => 9)
    (show ∀ entry ∈ [LogEntry.buddyAlloc ⟨2, 2⟩, .str 64 [97, 0]], entry.Fits by
      simpa [LogEntry.Fits] using isProgId) (by decide)
  exact ⟨m, recorded, found, entries 1 (by decide)⟩

end Lupin.Log
