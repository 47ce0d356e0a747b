import Lupin.Cgroup.Failure

/-!
# The accuracy of failure detection

One observer and the heartbeats of one machine. What the passes of the observer make of
the counter is a small machine of its own; the passes of `do_os_failure_detection`, which
look at all machines in turn, are runs of it.
-/

namespace Lupin.Cgroup.Failure

open Lupin.Transition

/-! ## What passes make of one counter -/

/-- A pass: the counter it has compared, how many heartbeats there had been, whether it saw the
counter changed, and whether it declared the machine failed. -/
structure Pass where
  counter : BitVec 32
  beats : Nat
  changed : Bool
  declared : Bool
deriving DecidableEq

/-- Where a pass is with this machine. -/
inductive Phase where
  | away
  | changed
  | declaring
  | refreshing
deriving DecidableEq

/-- Where a pass goes on after it saw the counter unchanged. -/
def Phase.afterTimeout (expired osLive : Bool) : Phase :=
  if expired then (if osLive then .declaring else .refreshing) else .away

theorem Phase.afterTimeout_eq_away {expired osLive : Bool} :
    afterTimeout expired osLive = .away ↔ expired = false := by
  cases expired <;> cases osLive <;> decide

theorem Phase.afterTimeout_eq_declaring {expired osLive : Bool} :
    afterTimeout expired osLive = .declaring ↔ (expired && osLive) = true := by
  cases expired <;> cases osLive <;> decide

theorem Phase.afterTimeout_ne_changed (expired osLive : Bool) :
    afterTimeout expired osLive ≠ .changed := by
  cases expired <;> cases osLive <;> decide

/-- The observer's variables for one machine, and its passes, the latest first. -/
structure Detector where
  phase : Phase
  osLive : Bool
  lastSeen : BitVec 32
  timeoutTimes : Nat
  counter : BitVec 32
  beats : Nat
  passes : List Pass

namespace Detector

def beat (d : Detector) : Detector :=
  { d with counter := d.counter + 1, beats := d.beats + 1 }

/-- The comparison of a pass. -/
def compare (d : Detector) : Detector :=
  if d.lastSeen ≠ d.counter then
    { d with phase := .changed, passes := ⟨d.counter, d.beats, true, false⟩ :: d.passes }
  else
    let expired : Bool := decide (d.timeoutTimes + 1 ≥ 2)
    { d with
      phase := .afterTimeout expired d.osLive
      timeoutTimes := d.timeoutTimes + 1
      passes := ⟨d.counter, d.beats, false, expired && d.osLive⟩ :: d.passes }

/-- The branch for a changed counter. -/
def markLive (d : Detector) : Detector :=
  { d with phase := .away, osLive := true, lastSeen := d.counter, timeoutTimes := 0 }

/-- The end of the branch for two timeouts. -/
def refresh (d : Detector) : Detector :=
  { d with phase := .away, osLive := false, timeoutTimes := 0 }

inductive Step (d d' : Detector) : Prop where
  | stay (same : d' = d)
  | beat (same : d' = d.beat)
  | compare (phase : d.phase = .away) (same : d' = d.compare)
  | markLive (phase : d.phase = .changed) (same : d' = d.markLive)
  | report (phase : d.phase = .declaring) (same : d' = { d with phase := .refreshing })
  | refresh (phase : d.phase = .refreshing) (same : d' = d.refresh)

/-- Fewer than 2^32 heartbeats since the latest pass. -/
def FewBeats (d : Detector) : Prop := ∀ p ∈ d.passes.head?, d.beats < p.beats + 2 ^ 32

/-- The two passes saw the counter unchanged, with no heartbeat between them. -/
def Silent (p q : Pass) : Prop := p.changed = false ∧ q.changed = false ∧ q.beats = p.beats

/-- What holds of the passes of an accurate detector. -/
structure Accurate (passes : List Pass) : Prop where
  silent : ∀ newer p older, passes = newer ++ p :: older → p.declared = true →
    ∃ q rest, older = q :: rest ∧ Silent p q
  revived : ∀ newer p between q older, passes = newer ++ p :: (between ++ q :: older) →
    p.declared = true → q.declared = true → ∃ r ∈ between, r.changed = true

/-- The variables follow from the passes. -/
structure Invariant (d : Detector) : Prop where
  accurate : Accurate d.passes
  timeouts : d.phase = .away → d.timeoutTimes ≤ 1
  counted : d.phase = .away → d.timeoutTimes = 1 → ∃ p ∈ d.passes.head?, p.changed = false
  followed : ∀ p ∈ d.passes.head?, p.beats ≤ d.beats ∧
    d.counter = p.counter + BitVec.ofNat 32 (d.beats - p.beats)
  lastSeen : ∀ p ∈ d.passes.head?, p.changed = false → d.phase ≠ .changed ∧ d.lastSeen = p.counter
  /-- A machine that was declared and has not been seen since is not taken for live. -/
  dead : d.phase = .away → ∀ newer p older, d.passes = newer ++ p :: older → p.declared = true →
    (∀ r ∈ newer, r.changed = false) → d.osLive = false
  /-- While a pass is with the machine, the pass is the latest one. -/
  current : d.phase ≠ .away → ∃ p older, d.passes = p :: older ∧
    (p.changed = true ↔ d.phase = .changed) ∧ (d.phase = .declaring → p.declared = true)

section Steps

variable {d d' : Detector} {passes : List Pass}

/-- A pass that declares the machine failed follows a silent one, and the machine was seen since
it was declared before. -/
theorem Accurate.cons (accurate : Accurate passes) {c : Pass}
    (silent : c.declared = true → ∃ q rest, passes = q :: rest ∧ Silent c q)
    (revived : c.declared = true → ∀ between q older, passes = between ++ q :: older →
      q.declared = true → ∃ r ∈ between, r.changed = true) : Accurate (c :: passes) := by
  refine ⟨fun newer p older whole declared => ?_,
    fun newer p between q older whole declared declared' => ?_⟩
  · rcases List.cons_eq_append_iff.mp whole with ⟨rfl, same⟩ | ⟨newer', rfl, rest⟩
    · obtain ⟨rfl, rfl⟩ := List.cons.inj same
      exact silent declared
    · exact accurate.silent newer' p older rest declared
  · rcases List.cons_eq_append_iff.mp whole with ⟨rfl, same⟩ | ⟨newer', rfl, rest⟩
    · obtain ⟨rfl, rfl⟩ := List.cons.inj same
      exact revived declared between q older rfl declared'
    · exact accurate.revived newer' p between q older rest declared declared'

theorem Invariant.beat (inv : Invariant d) : Invariant d.beat where
  accurate := inv.accurate
  timeouts := inv.timeouts
  counted := inv.counted
  followed p latest := by
    obtain ⟨before, counter⟩ := inv.followed p latest
    have one : d.beats + 1 - p.beats = d.beats - p.beats + 1 := by omega
    refine ⟨Nat.le_succ_of_le before, ?_⟩
    rw [Detector.beat, one, BitVec.ofNat_add, ← BitVec.add_assoc, ← counter]
    rfl
  lastSeen := inv.lastSeen
  dead := inv.dead
  current := inv.current

/-- A pass that sees the counter it has seen before, within 2^32 heartbeats, is a silent one. -/
theorem Invariant.silent_of_unchanged (inv : Invariant d) (few : d.FewBeats)
    (unchanged : d.lastSeen = d.counter) {q : Pass} (latest : q ∈ d.passes.head?)
    (unchangedBefore : q.changed = false) : q.beats = d.beats := by
  obtain ⟨before, counter⟩ := inv.followed q latest
  have bound := few q latest
  have same : d.counter = q.counter := by
    rw [← unchanged]
    exact (inv.lastSeen q latest unchangedBefore).2
  have zero : BitVec.ofNat 32 (d.beats - q.beats) = 0#32 := by
    rw [same] at counter
    simpa using counter
  have number := congrArg BitVec.toNat zero
  rw [BitVec.toNat_ofNat, Nat.mod_eq_of_lt (by omega), BitVec.toNat_ofNat] at number
  omega

theorem Invariant.compare (inv : Invariant d) (few : d.FewBeats) (away : d.phase = .away) :
    Invariant d.compare := by
  unfold Detector.compare
  split
  · -- the counter has changed
    refine ⟨inv.accurate.cons (by simp) (by simp), by simp, by simp, ?_, ?_, by simp,
      fun _ => ⟨_, _, rfl, by simp⟩⟩
    · simp
    · simp
  · rename_i same
    have unchanged : d.lastSeen = d.counter := not_not.mp same
    have few1 := inv.timeouts away
    dsimp only
    refine ⟨inv.accurate.cons (fun declared => ?_)
        (fun declared between q older whole isDead => ?_),
      fun quiet => ?_, fun _ _ => ⟨_, rfl, rfl⟩, by simp, ?_, fun quiet newer p older whole
      declared silent => ?_, fun _ => ⟨_, _, rfl, ?_, Phase.afterTimeout_eq_declaring.mp⟩⟩
    · -- two timeouts: the pass before was one of them
      simp only [Bool.and_eq_true, decide_eq_true_eq] at declared
      obtain ⟨q, latest, before⟩ := inv.counted away (by omega)
      obtain ⟨rest, whole⟩ := List.head?_eq_some_iff.mp latest
      exact ⟨q, rest, whole, rfl, before, inv.silent_of_unchanged few unchanged latest before⟩
    · simp only [Bool.and_eq_true, decide_eq_true_eq] at declared
      by_contra unseen
      have notLive := inv.dead away between q older whole isDead fun r member => by
        rw [← Bool.not_eq_true]
        exact fun changed => unseen ⟨r, member, changed⟩
      rw [declared.2] at notLive
      exact absurd notLive (by decide)
    · have early := Phase.afterTimeout_eq_away.mp quiet
      simp only [decide_eq_false_iff_not] at early
      dsimp only
      omega
    · intro p latest _
      obtain rfl : _ = p := by simpa using latest
      exact ⟨Phase.afterTimeout_ne_changed _ _, unchanged⟩
    · have early := Phase.afterTimeout_eq_away.mp quiet
      rcases List.cons_eq_append_iff.mp whole with ⟨rfl, first⟩ | ⟨newer', rfl, rest⟩
      · obtain ⟨rfl, rfl⟩ := List.cons.inj first
        dsimp only at declared
        rw [early, Bool.false_and] at declared
        exact absurd declared Bool.false_ne_true
      · exact inv.dead away newer' p older rest declared fun r member =>
          silent r (List.mem_cons_of_mem _ member)
    · simp [Phase.afterTimeout_ne_changed]

theorem Invariant.markLive (inv : Invariant d) (phase : d.phase = .changed) :
    Invariant d.markLive := by
  obtain ⟨latest, before, whole, changed, _⟩ := inv.current (by rw [phase]; decide)
  have seen := changed.mpr phase
  refine ⟨inv.accurate, by simp [Detector.markLive], by simp [Detector.markLive], inv.followed,
    fun p isLatest unchanged => ?_, fun _ newer p older split_ declared silent => ?_,
    by simp [Detector.markLive]⟩
  · exact absurd phase (inv.lastSeen p isLatest unchanged).1
  · have split' : d.passes = newer ++ p :: older := split_
    rw [whole] at split'
    rcases List.cons_eq_append_iff.mp split' with ⟨rfl, same⟩ | ⟨newer', rfl, rest⟩
    · obtain ⟨rfl, rfl⟩ := List.cons.inj same
      obtain ⟨_, _, _, unchanged, _⟩ := inv.accurate.silent [] _ _ split_ declared
      rw [seen] at unchanged
      exact absurd unchanged (by decide)
    · have unchanged := silent latest List.mem_cons_self
      rw [seen] at unchanged
      exact absurd unchanged (by decide)

theorem Invariant.report (inv : Invariant d) (phase : d.phase = .declaring) :
    Invariant { d with phase := .refreshing } := by
  obtain ⟨latest, before, whole, changed, _⟩ := inv.current (by rw [phase]; decide)
  refine ⟨inv.accurate, by simp, by simp, inv.followed, fun p isLatest unchanged =>
    ⟨by simp, (inv.lastSeen p isLatest unchanged).2⟩, by simp,
    fun _ => ⟨latest, before, whole, ?_, by simp⟩⟩
  rw [changed, phase]
  simp

theorem Invariant.refresh (inv : Invariant d) : Invariant d.refresh :=
  ⟨inv.accurate, by simp [Detector.refresh], by simp [Detector.refresh], inv.followed,
    fun p latest unchanged => ⟨by simp [Detector.refresh], (inv.lastSeen p latest unchanged).2⟩,
    by simp [Detector.refresh], by simp [Detector.refresh]⟩

theorem Invariant.step (inv : Invariant d) (few : d.FewBeats) (step : Step d d') :
    Invariant d' := by
  cases step with
  | stay same => exact same ▸ inv
  | beat same => exact same ▸ inv.beat
  | compare away same => exact same ▸ inv.compare few away
  | markLive phase same => exact same ▸ inv.markLive phase
  | report phase same => exact same ▸ inv.report phase
  | refresh _ same => exact same ▸ inv.refresh

end Steps

end Detector

/-! ## The passes of an observer -/

variable {n : Nat}

/-- The memory and the observer, and what is recorded of the heartbeats of one machine and of
the passes over it. -/
structure Watch (n : Nat) where
  state : State n
  beats : Nat
  passes : List Pass

inductive WatchAction (n : Nat) where
  | access
  | beat
  | others (osGenerationIds osHeartbeats : Fin n → BitVec 32)

/-- A pass starts. -/
@[simp] def Stage.starts : Stage n → Bool
  | .idle => true
  | _ => false

/-- A pass compares the counter of machine `i`. -/
@[simp] def Stage.compares (i : Fin n) : Stage n → Bool
  | .check j => j = i
  | _ => false

/-- A pass declares machine `i` failed. -/
@[simp] def Stage.declares (i : Fin n) : Stage n → Bool
  | .expired j => j = i
  | _ => false

/-- An access of the observer `o`. -/
def Watch.access (w : Watch n) (o i : Fin n) : Option (Watch n) :=
  (w.state.access o).map fun next =>
    { state := next
      beats := if (w.state.nodes o).stage.starts ∧ o = i then w.beats + 1 else w.beats
      passes :=
        if (w.state.nodes o).stage.compares i then
          ⟨w.state.osHeartbeats i, w.beats,
            decide ((w.state.nodes o).osHeartbeats i ≠ w.state.osHeartbeats i),
            (next.nodes o).stage.declares i⟩ :: w.passes
        else w.passes }

/-- The passes of `o` among the heartbeats of `i`, with the rest of the shared memory changing
at will. -/
def watchMachine (o i : Fin n) (start : State n) : Machine (Watch n) (WatchAction n) where
  initial := ⟨start, 0, []⟩
  step w
    | .access => w.access o i
    | .beat => some { w with
        state := { w.state with
          osHeartbeats := Function.update w.state.osHeartbeats i (w.state.osHeartbeats i + 1) }
        beats := w.beats + 1 }
    | .others osGenerationIds osHeartbeats => some { w with
        state := { w.state with
          osGenerationIds
          osHeartbeats := Function.update osHeartbeats i (w.state.osHeartbeats i) } }

/-- Fewer than 2^32 heartbeats of the machine between two passes. -/
def fewBeats : Guard (Watch n) (WatchAction n) := fun _ _ next =>
  ∀ p ∈ next.passes.head?, next.beats < p.beats + 2 ^ 32

/-- The variables of a module that was just loaded and has run `init_cxlcg_meta` or
`recover_cxlcg_meta`. -/
structure Node.Loaded (node : Node n) : Prop where
  stage : node.stage = .idle
  osLive : ∀ j, node.osLive j = true
  osHeartbeats : ∀ j, node.osHeartbeats j = 0
  timeoutTimes : ∀ j, node.timeoutTimes j = 0

/-- The variables of a machine that is in `recover_cxlcg_meta`. -/
structure Node.Loading (node : Node n) : Prop where
  stage : node.stage = .recovering ∨ ∃ j, node.stage = .copying j
  osHeartbeats : ∀ j, node.osHeartbeats j = 0
  timeoutTimes : ∀ j, node.timeoutTimes j = 0

section Loading

variable {s next : State n} {o : Fin n}

theorem loaded_init (taken : (failureMachine n).step s (.init o) = some next) :
    (next.nodes o).Loaded := by
  simp only [failureMachine, Option.ite_none_right_eq_some] at taken
  obtain ⟨_, same⟩ := taken
  obtain rfl := Option.some.inj same
  constructor <;> simp [Node.off]

theorem loading_recover (taken : (failureMachine n).step s (.recover o) = some next) :
    (next.nodes o).Loading := by
  simp only [failureMachine, Option.ite_none_right_eq_some] at taken
  obtain ⟨_, same⟩ := taken
  obtain rfl := Option.some.inj same
  constructor <;> simp [State.setNode, Node.off]

/-- `recover_cxlcg_meta` copies the generations and leaves the rest as it was loaded. -/
theorem loaded_of_loading (loading : (s.nodes o).Loading) (taken : s.access o = some next) :
    (next.nodes o).Loading ∨ (next.nodes o).Loaded := by
  rcases loading.stage with stage | ⟨j, stage⟩
  · simp only [State.access, stage, Option.some.injEq] at taken
    subst taken
    refine .inl ⟨.inr ⟨⟨0, o.pos⟩, by simp [State.setNode]⟩, fun k => ?_, fun k => ?_⟩
    · simpa [State.setNode] using loading.osHeartbeats k
    · simpa [State.setNode] using loading.timeoutTimes k
  · simp only [State.access, stage, Option.some.injEq] at taken
    subst taken
    simp only [State.setNode, Function.update_self, Node.copy]
    split
    · exact .inl ⟨.inr ⟨_, rfl⟩, loading.osHeartbeats, loading.timeoutTimes⟩
    · exact .inr ⟨rfl, fun _ => rfl, loading.osHeartbeats, loading.timeoutTimes⟩

end Loading

def Stage.phase (i : Fin n) : Stage n → Phase
  | .changed j => if j = i then .changed else .away
  | .expired j | .report j => if j = i then .declaring else .away
  | .refresh j => if j = i then .refreshing else .away
  | _ => .away

/-- The observer's machine for `i`. -/
def Watch.detector (w : Watch n) (o i : Fin n) : Detector where
  phase := (w.state.nodes o).stage.phase i
  osLive := (w.state.nodes o).osLive i
  lastSeen := (w.state.nodes o).osHeartbeats i
  timeoutTimes := (w.state.nodes o).timeoutTimes i
  counter := w.state.osHeartbeats i
  beats := w.beats
  passes := w.passes

/-- The machine has left `recover_cxlcg_meta` and has not crashed. -/
def Stage.Running : Stage n → Prop
  | .down | .recovering | .copying _ => False
  | _ => True

section Refinement

variable {o i j : Fin n} {w next : Watch n}

@[simp] theorem Stage.phase_idle : (Stage.idle : Stage n).phase i = .away := rfl

@[simp] theorem Stage.phase_check : (Stage.check j).phase i = .away := rfl

@[simp] theorem Stage.phase_changed :
    (Stage.changed j).phase i = if j = i then .changed else .away := rfl

@[simp] theorem Stage.phase_expired :
    (Stage.expired j).phase i = if j = i then .declaring else .away := rfl

@[simp] theorem Stage.phase_report :
    (Stage.report j).phase i = if j = i then .declaring else .away := rfl

@[simp] theorem Stage.phase_refresh :
    (Stage.refresh j).phase i = if j = i then .refreshing else .away := rfl

@[simp] theorem Stage.phase_advance : (Stage.advance j).phase i = .away := by
  unfold Stage.advance
  split <;> rfl

theorem Stage.running_advance : (Stage.advance j).Running := by
  unfold Stage.advance
  split <;> trivial

/-- The comparison of a pass, as that of the machine for `i`. -/
theorem Node.check_self (node : Node n) (heartbeat : BitVec 32) :
    (node.check i heartbeat).stage.Running ∧
    (node.check i heartbeat).osLive = node.osLive ∧
    (node.check i heartbeat).osHeartbeats = node.osHeartbeats ∧
    (if node.osHeartbeats i ≠ heartbeat then
      (node.check i heartbeat).stage = .changed i ∧
        (node.check i heartbeat).timeoutTimes = node.timeoutTimes
    else
      (node.check i heartbeat).stage.phase i =
          .afterTimeout (decide (node.timeoutTimes i + 1 ≥ 2)) (node.osLive i) ∧
        (node.check i heartbeat).stage.declares i =
          (decide (node.timeoutTimes i + 1 ≥ 2) && node.osLive i) ∧
        (node.check i heartbeat).timeoutTimes i = node.timeoutTimes i + 1) := by
  unfold Node.check
  by_cases changed : node.osHeartbeats i ≠ heartbeat
  · simp only [if_pos changed]
    simp [Stage.Running]
  · simp only [if_neg changed, Function.update_self]
    by_cases expired : node.timeoutTimes i + 1 ≥ 2
    · simp only [if_pos expired]
      cases live : node.osLive i with
      | true => simp [Stage.Running, Phase.afterTimeout, expired]
      | false => simp [Stage.Running, Phase.afterTimeout, expired]
    · simp only [if_neg expired]
      have notExpired : (Stage.advance i : Stage n).declares i = false := by
        unfold Stage.advance
        split <;> rfl
      simp [-Stage.declares, Stage.running_advance, Phase.afterTimeout, expired, notExpired]

/-- What a pass does about another machine does not show. -/
theorem Node.check_other (node : Node n) (heartbeat : BitVec 32) (other : i ≠ j) :
    (node.check j heartbeat).stage.Running ∧ (node.check j heartbeat).stage.phase i = .away ∧
    (node.check j heartbeat).osLive = node.osLive ∧
    (node.check j heartbeat).osHeartbeats = node.osHeartbeats ∧
    (node.check j heartbeat).timeoutTimes i = node.timeoutTimes i := by
  unfold Node.check
  split
  · simp [Stage.Running, other.symm]
  · dsimp only
    split
    · split <;> simp [Stage.Running, other, other.symm]
    · simp [Stage.running_advance, other]

theorem Watch.access_check (stage : (w.state.nodes o).stage = .check j)
    (taken : w.access o i = some next) :
    (next.state.nodes o).stage.Running ∧ Detector.Step (w.detector o i) (next.detector o i) := by
  have away : (w.detector o i).phase = .away := by simp [Watch.detector, stage]
  simp only [Watch.access, State.access, stage, Option.map_some, Option.some.injEq] at taken
  subst taken
  rcases eq_or_ne i j with rfl | other
  · obtain ⟨running, live, seen, verdict⟩ :=
      (w.state.nodes o).check_self (i := i) (w.state.osHeartbeats i)
    refine ⟨by simpa [State.setNode] using running, .compare away ?_⟩
    unfold Detector.compare
    by_cases changed : (w.state.nodes o).osHeartbeats i ≠ w.state.osHeartbeats i
    · rw [if_pos changed] at verdict
      rw [if_pos (show (w.detector o i).lastSeen ≠ (w.detector o i).counter from changed)]
      simp [Watch.detector, State.setNode, live, seen, verdict.1, verdict.2, changed]
    · rw [if_neg changed] at verdict
      rw [if_neg (show ¬ (w.detector o i).lastSeen ≠ (w.detector o i).counter from changed)]
      simp only [Watch.detector, State.setNode, live, seen, verdict.1, verdict.2.1, verdict.2.2,
        Function.update_self, changed]
      simp
  · obtain ⟨running, phase, live, seen, times⟩ :=
      (w.state.nodes o).check_other (w.state.osHeartbeats j) other
    refine ⟨by simpa [State.setNode] using running, .stay ?_⟩
    simp [Watch.detector, State.setNode, live, seen, times, phase, other.symm, stage]

/-- An access of a running observer is a step of its machine for `i`. -/
theorem Watch.access_step (running : (w.state.nodes o).stage.Running)
    (taken : w.access o i = some next) :
    (next.state.nodes o).stage.Running ∧ Detector.Step (w.detector o i) (next.detector o i) := by
  cases stage : (w.state.nodes o).stage with
  | down | recovering => simp [Stage.Running, stage] at running
  | copying j => simp [Stage.Running, stage] at running
  | check j => exact Watch.access_check stage taken
  | idle =>
      simp only [Watch.access, State.access, stage, Option.map_some, Option.some.injEq] at taken
      subst taken
      refine ⟨by simp [State.setNode, Stage.Running], ?_⟩
      rcases eq_or_ne o i with rfl | other
      · exact .beat (by simp [Watch.detector, Detector.beat, State.setNode, stage])
      · exact .stay (by simp [Watch.detector, State.setNode, stage, other, other.symm])
  | changed j =>
      simp only [Watch.access, State.access, stage, Option.map_some, Option.some.injEq] at taken
      subst taken
      refine ⟨by simp [State.setNode, Node.markLive, Stage.running_advance], ?_⟩
      rcases eq_or_ne i j with rfl | other
      · refine .markLive (by simp [Watch.detector, stage]) ?_
        simp [Watch.detector, Detector.markLive, State.setNode, Node.markLive]
      · refine .stay ?_
        simp [Watch.detector, State.setNode, Node.markLive, stage, other, other.symm]
  | expired j =>
      simp only [Watch.access, State.access, stage, Option.map_some, Option.some.injEq] at taken
      subst taken
      refine ⟨by simp [State.setNode, Stage.Running], .stay ?_⟩
      simp [Watch.detector, State.setNode, State.bump, stage]
  | report j =>
      simp only [Watch.access, State.access, stage, Option.map_some, Option.some.injEq] at taken
      subst taken
      refine ⟨by simp [State.setNode, Stage.Running], ?_⟩
      rcases eq_or_ne i j with rfl | other
      · refine .report (by simp [Watch.detector, stage]) ?_
        simp [Watch.detector, State.setNode]
      · refine .stay ?_
        simp [Watch.detector, State.setNode, stage, other.symm]
  | refresh j =>
      simp only [Watch.access, State.access, stage, Option.map_some, Option.some.injEq] at taken
      subst taken
      refine ⟨by simp [State.setNode, Node.refresh, Stage.running_advance], ?_⟩
      rcases eq_or_ne i j with rfl | other
      · refine .refresh (by simp [Watch.detector, stage]) ?_
        simp [Watch.detector, Detector.refresh, State.setNode, Node.refresh]
      · refine .stay ?_
        simp [Watch.detector, State.setNode, Node.refresh, stage, other, other.symm]

theorem Watch.step_detector {start : State n} {action : WatchAction n}
    (running : (w.state.nodes o).stage.Running)
    (taken : (watchMachine o i start).step w action = some next) :
    (next.state.nodes o).stage.Running ∧ Detector.Step (w.detector o i) (next.detector o i) := by
  cases action with
  | access => exact Watch.access_step running taken
  | beat =>
      obtain rfl := Option.some.inj taken
      exact ⟨running, .beat (by simp [Watch.detector, Detector.beat])⟩
  | others osGenerationIds osHeartbeats =>
      obtain rfl := Option.some.inj taken
      exact ⟨running, .stay (by simp [Watch.detector])⟩

end Refinement

/-- A fresh observer knows nothing and has made no pass. -/
theorem Detector.Invariant.initial {d : Detector} (away : d.phase = .away) (none_ : d.passes = [])
    (zero : d.timeoutTimes = 0) : d.Invariant := by
  refine ⟨⟨?_, ?_⟩, fun _ => by omega, fun _ one => by omega, by simp [none_], by simp [none_],
    ?_, fun busy => absurd away busy⟩
  · rw [none_]
    simp
  · rw [none_]
    simp
  · rw [none_]
    simp

section Started

variable {o i : Fin n} {start : State n} {w next : Watch n} {action : WatchAction n}

/-- The observer is still in `recover_cxlcg_meta`, or its passes follow the machine for `i`. -/
def Watch.Started (w : Watch n) (o i : Fin n) : Prop :=
  (w.state.nodes o).Loading ∧ w.passes = [] ∨
    (w.state.nodes o).stage.Running ∧ (w.detector o i).Invariant ∧ (w.detector o i).FewBeats

theorem Watch.started_of_loaded (loaded : (w.state.nodes o).Loaded) (none_ : w.passes = []) :
    w.Started o i := by
  refine .inr ⟨by simp [loaded.stage, Stage.Running], .initial ?_ none_ ?_, ?_⟩
  · simp [Watch.detector, loaded.stage]
  · simp [Watch.detector, loaded.timeoutTimes]
  · simp [Detector.FewBeats, Watch.detector, none_]

/-- An access in `recover_cxlcg_meta` records no pass. -/
theorem Watch.access_loading (loading : (w.state.nodes o).Loading) (none_ : w.passes = [])
    (taken : w.access o i = some next) : next.Started o i := by
  obtain ⟨after, accessed, rfl⟩ := Option.map_eq_some_iff.mp taken
  have notChecking : (w.state.nodes o).stage.compares i = false := by
    rcases loading.stage with stage | ⟨j, stage⟩ <;> rw [stage] <;> rfl
  rw [notChecking, if_neg Bool.false_ne_true]
  rcases loaded_of_loading loading accessed with still | loaded
  · exact .inl ⟨still, none_⟩
  · exact Watch.started_of_loaded loaded none_

theorem Watch.Started.step (started : w.Started o i)
    (taken : (watchMachine o i start).step w action = some next)
    (allowed : fewBeats w action next) : next.Started o i := by
  rcases started with ⟨loading, none_⟩ | ⟨running, inv, few⟩
  · cases action with
    | access => exact Watch.access_loading loading none_ taken
    | beat | others =>
        obtain rfl := Option.some.inj taken
        exact .inl ⟨loading, none_⟩
  · obtain ⟨running', step⟩ := Watch.step_detector running taken
    exact .inr ⟨running', inv.step few step, allowed⟩

theorem Watch.started_of_reachable (begun : (start.nodes o).Loading ∨ (start.nodes o).Loaded)
    (reached : (watchMachine o i start).Reachable fewBeats w) : w.Started o i := by
  refine @Machine.Reachable.invariant _ _ _ _ (fun w => w.Started o i) ?_
    (fun started taken allowed => started.step taken allowed) _ reached
  rcases begun with loading | loaded
  · exact .inl ⟨loading, rfl⟩
  · exact Watch.started_of_loaded loaded rfl

/-- What is declared in the passes over a machine, with the latest pass first. -/
def Watch.Accurate (w : Watch n) (o i : Fin n) : Prop :=
  ((∀ newer p q older, w.passes = newer ++ p :: q :: older → q.beats < p.beats) →
    (∀ p ∈ w.passes, p.declared = false) ∧
      (w.state.nodes o).stage ≠ .expired i ∧ (w.state.nodes o).stage ≠ .report i) ∧
  (∀ newer p older, w.passes = newer ++ p :: older → p.declared = true →
    ∃ q rest, older = q :: rest ∧ p.changed = false ∧ q.changed = false ∧ q.beats = p.beats) ∧
  ∀ newer p between q older, w.passes = newer ++ p :: (between ++ q :: older) →
    p.declared = true → q.declared = true → ∃ r ∈ between, r.changed = true

theorem Watch.Started.accurate (started : w.Started o i) : w.Accurate o i := by
  rcases started with ⟨loading, none_⟩ | ⟨_, inv, _⟩
  · refine ⟨fun _ => ⟨by simp [none_], ?_⟩, by simp [none_], by simp [none_]⟩
    rcases loading.stage with stage | ⟨j, stage⟩ <;> simp [stage]
  have accurate : Detector.Accurate w.passes := inv.accurate
  refine ⟨fun changes => ?_, accurate.silent, accurate.revived⟩
  have never : ∀ p ∈ w.passes, p.declared = false := by
    intro p member
    by_contra declared
    obtain ⟨newer, older, whole⟩ := List.append_of_mem member
    obtain ⟨q, rest, rfl, _, _, same⟩ :=
      accurate.silent newer p older whole (by simpa using declared)
    have more := changes newer p q rest whole
    omega
  have notDeclaring : (w.detector o i).phase ≠ .declaring := by
    intro phase
    obtain ⟨p, older, whole, _, declared⟩ := inv.current (by rw [phase]; decide)
    have member : p ∈ w.passes := by
      have isFirst : w.passes = p :: older := whole
      rw [isFirst]
      exact List.mem_cons_self
    exact absurd (declared phase) (by simp [never p member])
  refine ⟨never, fun stage => notDeclaring ?_, fun stage => notDeclaring ?_⟩
  · simp [Watch.detector, stage]
  · simp [Watch.detector, stage]

/-- A machine whose counter changes between every two passes is never declared failed; a
declaration happens in a pass that saw the counter unchanged, right after another one that
did, with no heartbeat between them; and between two declarations a pass saw it changed. -/
theorem failure_detector_accurate {o i : Fin n} {start : State n}
    (loaded : (start.nodes o).Loaded) {w : Watch n}
    (reached : (watchMachine o i start).Reachable fewBeats w) :
    ((∀ newer p q older, w.passes = newer ++ p :: q :: older → q.beats < p.beats) →
      (∀ p ∈ w.passes, p.declared = false) ∧
        (w.state.nodes o).stage ≠ .expired i ∧ (w.state.nodes o).stage ≠ .report i) ∧
    (∀ newer p older, w.passes = newer ++ p :: older → p.declared = true →
      ∃ q rest, older = q :: rest ∧ p.changed = false ∧ q.changed = false ∧ q.beats = p.beats) ∧
    ∀ newer p between q older, w.passes = newer ++ p :: (between ++ q :: older) →
      p.declared = true → q.declared = true → ∃ r ∈ between, r.changed = true :=
  (Watch.started_of_reachable (.inr loaded) reached).accurate

/-- The same from the moment the observer enters `recover_cxlcg_meta` or has run
`init_cxlcg_meta`, in any state of the machines. -/
theorem accurate_from_start {s : State n}
    (begun : (failureMachine n).step s (.init o) = some start ∨
      (failureMachine n).step s (.recover o) = some start)
    (reached : (watchMachine o i start).Reachable fewBeats w) : w.Accurate o i := by
  refine (Watch.started_of_reachable ?_ reached).accurate
  exact begun.symm.imp loading_recover loaded_init

end Started

/-- Machine 0 sets up the memory and makes two passes without a heartbeat of machine 1. -/
def twoSilentPasses : List (WatchAction 2) := List.replicate 11 .access

theorem failure_detector_accurate_twoSilentPasses :
    ((watchMachine 0 1 ((failureMachine 2).final [.init 0])).final twoSilentPasses).passes =
        [⟨0, 0, false, true⟩, ⟨0, 0, false, false⟩] ∧
      ∃ q rest, [(⟨0, 0, false, false⟩ : Pass)] = q :: rest ∧ q.changed = false := by
  have loaded : (((failureMachine 2).final [.init 0]).nodes 0).Loaded := by
    constructor <;> decide
  have passes :
      ((watchMachine 0 1 ((failureMachine 2).final [.init 0])).final twoSilentPasses).passes =
        [⟨0, 0, false, true⟩, ⟨0, 0, false, false⟩] := by
    decide +kernel
  have reached : (watchMachine 0 1 ((failureMachine 2).final [.init 0])).Reachable fewBeats
      ((watchMachine 0 1 ((failureMachine 2).final [.init 0])).final twoSilentPasses) :=
    Machine.reachable_final (fun _ _ next => next.beats == 0)
      (fun _ _ _ zero _ _ => by rw [beq_iff_eq.mp zero]; omega)
      twoSilentPasses (by decide +kernel)
  obtain ⟨q, rest, same, _, silent, _⟩ :=
    (failure_detector_accurate loaded reached).2.1 [] _ _ passes rfl
  exact ⟨passes, q, rest, same, silent⟩

end Lupin.Cgroup.Failure
