import Lupin.Log.Torn
import Lupin.Alloc.Capacity

/-!
# Deaths that recovery does not get over

A free writes its log over that of the operation before. A machine that dies once it has blanked
the start of the first entry leaves a log whose checksum is wrong, and `recover_with_redolog` gives
up: in `recover_meta`, on this machine and on every other, and in the help of a survivor.
-/

namespace Lupin.Alloc

open Lupin.Memory Lupin.HeapIndex Lupin.LevelTree Lupin.Buddy Lupin.Log Lupin.LinkedList
  Lupin.Transition

section Stuck

variable {s : Mapping} {m : Mem} {pages headers : List Nat} {live : List (Nat × Nat)}

/-- The first stores of a free that finds a header. -/
theorem Sound.free_blanks (sound : Sound s m pages headers live) (d : MetaDram)
    {freeArg : RegionDesc} {h : Nat} (found : headers.find? (namedAt m freeArg.progId) = some h)
    (isLive : (freeArg.offset, freeArg.length) ∈ live) :
    ∃ rest, (atomicFreeMemory s.shmem d freeArg).stores m =
      blankEntry (entryAddr s.shmem.redolog 0) ++ rest := by
  obtain ⟨_, _, atEnd, invariant⟩ := sound.tree
  obtain ⟨node, _, at_, position, _⟩ := invariant.release atEnd isLive
  obtain ⟨p, slot, rfl, freeing⟩ :=
    sound.shape.freeing (List.mem_of_find?_eq_some found) at_.node
  rw [Shm.stores, freeing.atomicFreeMemory_eq sound.shape d found position,
    (Shm.Returns.putAll m _).bind_apply]
  exact ⟨_, rfl⟩

/-- Recovery fails on a committed log whose first eight bytes have been blanked. -/
theorem Mapping.Logged.redo_fails (logged : s.Logged m) (curObjRecs : Option Nat) :
    (recoverWithRedolog s.shmem.buddyAlloc s.shmem.redolog curObjRecs).Returns
      (m.store (Mem.scalar 8 (entryAddr s.shmem.redolog 0) 0)) [] (elogErr, curObjRecs) := by
  obtain ⟨entries, some, few, readable, committed⟩ := logged
  have positive : 0 < entries.length := List.length_pos_iff.mpr some
  have start : entryAddr s.shmem.redolog 0 = s.shmem.redolog := rfl
  have second : s.shmem.redolog + 56 ≤ entryAddr s.shmem.redolog entries.length := by
    have := @entryAddr_le s.shmem.redolog _ _ positive
    unfold entryAddr sizeofLogEntry at this ⊢
    omega
  generalize blanked : m.store (Mem.scalar 8 (entryAddr s.shmem.redolog 0) 0) = m'
  have same : ∀ a, a < s.shmem.redolog ∨ s.shmem.redolog + 8 ≤ a → m' a = m a := by
    intro a apart
    rw [← blanked]
    exact Mem.store_of_not_covers (Mem.scalar_within.mpr ⟨le_rfl, le_rfl⟩ |>.not_covers apart)
  have blank : m'.read 4 s.shmem.redolog = 0 := by
    have whole := Mem.read_store_self m 8 (entryAddr s.shmem.redolog 0) 0
    rw [blanked, start] at whole
    exact Nat.eq_zero_of_le_zero ((Mem.read_le m' 4 4 _).trans whole.le)
  have tag : m.read 4 s.shmem.redolog ≠ 0 := by
    have isEntry := List.getElem?_eq_getElem positive
    rw [← start, (committed.written 0 entries[0] isEntry _ List.mem_cons_self).read_eq
      (EntryType.code_lt _)]
    cases entries[0] <;> simp [LogEntry.tp, EntryType.code]
  refine committed.torn few (by rw [Nat.sub_self]) le_rfl (by omega) same
    (fun unchanged => tag (unchanged.1 ▸ blank)) (fun i bound => ?_) s.shmem.buddyAlloc curObjRecs
  rcases Nat.eq_zero_or_pos i with rfl | later
  · rw [start, blank]
    decide
  · rw [Mem.read_congr fun a low _ => same a ?_]
    · exact committed.tag_ne bound
    · have := @entryAddr_le s.shmem.redolog _ _ later
      unfold entryAddr sizeofLogEntry at this low
      omega

/-- `recover_meta` hands the error on. -/
theorem recoverMeta_fails {shmem : MetaShmem} {d : MetaDram}
    (located : Layout.recoverMetaAddress d.memLength = some shmem.base)
    (fails : (recoverWithRedolog shmem.buddyAlloc shmem.redolog d.curObjRecs).Returns m []
      (elogErr, d.curObjRecs)) :
    (recoverMeta shmem d).Returns m [] (-(elogErr : Int), d.curObjRecs) := by
  rw [recoverMeta_eq located, Shm.Returns, recoverMetaAt, fails.bind_eq]
  dsimp only
  rw [if_pos (by decide)]
  rfl

end Stuck

/-- A call that stores nothing and leaves its machine as it is. -/
theorem step_unchanged (state : State) (machine : UInt16) :
    State.mk (state.mem.apply []) (Function.update state.cur machine (state.cur machine))
      state.ledger none = { state with dead := none } := by
  rw [Function.update_eq_self]
  rfl

section Runs

variable {g : Setting} {buddySize : Nat} {first machine : UInt16} {prior : Mem} {state : State}

/-- In every state of an orderly run with the lock free: when a machine dies after the first store
of a free that finds its name, which no orderly run allows, recovery fails until another call writes
the log. `recover_meta` returns `-ELOG_ERR` and leaves memory as it is, however often it is called
and on whatever machine, and so does a survivor that helps. -/
theorem interrupted_free_stuck
    (accepted : metaShmemOf g.memLength = some (g.shmem, buddySize)) (bound : g.memLength ≤ 2 ^ 62)
    (located : Layout.recoverMetaAddress g.memLength = some g.shmem.base)
    (reached : (g.machine buddySize first prior).Reachable g.Orderly state)
    (alive : state.dead = none) {region object : Object} (isHeld : region ∈ state.ledger.held)
    (isListed : state.ledger.dir.lookup region.name = some object) (machine : UInt16) :
    ∃ broken, g.step state (.crash machine (.free region) 1) = some broken ∧
      (∀ other, (recoverMeta g.shmem (g.dram broken other)).run broken.mem =
        some (broken.mem, -(elogErr : Int), broken.cur other)) ∧
      g.step broken (.call machine .recover) = some { broken with dead := none } ∧
      ∀ helper ≠ machine,
        g.step broken (.call helper .help) = some { broken with dead := none } := by
  obtain ⟨s, on, _, pages, headers, live, consistent, _, now⟩ :=
    accounted_of_reachable accepted bound located reached
  obtain rfl := now alive
  have admitted : state.admits machine (.free region) = true :=
    State.admits_of_alive alive rfl machine
  obtain ⟨h, found⟩ : ∃ h, headers.find? (namedAt state.mem region.name.toCString) = some h := by
    rcases find_split consistent.directory.entries region.name with ⟨_, others⟩ |
      ⟨_, h, _, _, _, _, _, _, _, _, _, _, _, found⟩
    · exact absurd (isListed.symm.trans (Directory.lookup_none others)) (by simp)
    · exact ⟨h, found⟩
  obtain ⟨rest, blanks⟩ := @Sound.free_blanks _ _ _ _ _ consistent.sound (g.dram state machine)
    region.desc h found (consistent.isLive isHeld)
  have crashed : (serve g.shmem (g.dram state machine) (.free region)).crashed state.mem 1 =
      state.mem.store (Mem.scalar 8 (entryAddr s.shmem.redolog 0) 0) := by
    rw [← on.shmem] at blanks
    rcases ran : atomicFreeMemory g.shmem (g.dram state machine) region.desc state.mem with
      ⟨stores, result⟩
    rw [Shm.stores, ran] at blanks
    rw [Shm.crashed, Shm.stores, serve_free ran, blanks, on.shmem]
    rfl
  obtain ⟨broken, dies, isMem, isDead⟩ : ∃ broken,
      g.step state (.crash machine (.free region) 1) = some broken ∧
        broken.mem = state.mem.store (Mem.scalar 8 (entryAddr s.shmem.redolog 0) 0) ∧
        broken.dead = some machine := by
    refine ⟨⟨(serve g.shmem (g.dram state machine) (.free region)).crashed state.mem 1, _, _,
      some machine⟩, if_pos admitted, ?_, rfl⟩
    rw [crashed]
  have fails : ∀ other, (recoverWithRedolog g.shmem.buddyAlloc g.shmem.redolog
      (g.dram broken other).curObjRecs).Returns broken.mem [] (elogErr, broken.cur other) := by
    intro other
    have isCur : (g.dram broken other).curObjRecs = broken.cur other := rfl
    rw [isCur, isMem, on.shmem]
    exact (consistent.logged (List.ne_nil_of_mem isHeld)).redo_fails (broken.cur other)
  have recoverFails : ∀ other, (recoverMeta g.shmem (g.dram broken other)).Returns broken.mem []
      (-(elogErr : Int), broken.cur other) := by
    intro other
    exact recoverMeta_fails located (fails other)
  refine ⟨broken, dies, fun other => (recoverFails other).run_eq, ?_, fun helper isOther => ?_⟩
  · have admits : broken.admits machine .recover = true := by
      simp [State.admits, isDead, Request.heals, Request.isHelp]
    rw [step_of_returns admits (serve_recover (recoverFails machine))]
    exact congrArg some (step_unchanged broken machine)
  · have admits : broken.admits helper .help = true := by
      simp [State.admits, isDead, Request.heals, Request.isHelp, isOther]
    rw [step_of_returns admits (serve_help (fails helper))]
    exact congrArg some (step_unchanged broken helper)

/-- The machine dies in the free of the newer of two regions, and another one helps in vain. -/
theorem interrupted_free_stuck_newer : ∃ state broken, ∃ region ∈ state.ledger.held,
    state.ledger.held.length = 2 ∧
      smallSetting.step state (.crash 1 (.free region) 1) = some broken ∧
      (recoverMeta smallSetting.shmem (smallSetting.dram broken 1)).run broken.mem =
        some (broken.mem, -134, broken.cur 1) ∧
      smallSetting.step broken (.call 2 .help) = some { broken with dead := none } := by
  obtain ⟨_, state, _, reached, filled, named⟩ :=
    smallSetting_filled [sampleName, secondName] (by decide)
  obtain ⟨older, newer, held, _, _, entries, others⟩ := filled.two named (by decide)
  have isHeld : newer ∈ state.ledger.held := held ▸ List.mem_cons_self
  obtain ⟨broken, crashed, fails, _, helps⟩ := interrupted_free_stuck smallSetting_accepted
    (by decide) smallSetting_located reached filled.alive isHeld
    (Directory.lookup_some entries others rfl) 1
  exact ⟨state, broken, newer, isHeld, by rw [held]; rfl, crashed, fails 1, helps 2 (by decide)⟩

end Runs

end Lupin.Alloc
