import Mathlib.Data.List.Nodup
import Mathlib.Logic.Function.Basic

/-!
# Linked queues whose links lag behind

A queue that is kept by its members alone: each one knows its successor, and a member that has
just come in first has to tell its predecessor. Between the two the predecessor still has no
successor, and the newcomer is `joining` it.
-/

namespace Lupin.LaggingQueue

variable {Node : Type*} {next joining : Node → Option Node} {queue : List Node} {a b : Node}

/-- The links from one member to the next, each made or about to be made. -/
def Lagging (next joining : Node → Option Node) : List Node → Prop
  | [] => True
  | [a] => next a = none
  | a :: b :: rest =>
      ((joining b = some a ∧ next a = none) ∨ (joining b = none ∧ next a = some b)) ∧
        Lagging next joining (b :: rest)

theorem Lagging.pop (lagging : Lagging next joining (a :: queue)) :
    Lagging next joining queue := by
  cases queue with
  | nil => trivial
  | cons b rest => exact lagging.2

/-- Only the links of members, and what newcomers behind the first one are joining, matter. -/
theorem Lagging.congr (lagging : Lagging next joining queue) {next' joining' : Node → Option Node}
    (sameNext : ∀ x ∈ queue, next' x = next x)
    (sameJoining : ∀ x ∈ queue.tail, joining' x = joining x) : Lagging next' joining' queue := by
  induction queue with
  | nil => trivial
  | cons a rest inductionHypothesis =>
      have first := sameNext a List.mem_cons_self
      cases rest with
      | nil => exact first.trans lagging
      | cons b behind =>
          refine ⟨?_, inductionHypothesis lagging.2 ?_ ?_⟩
          · rw [sameJoining b List.mem_cons_self, first]
            exact lagging.1
          · exact fun x member => sameNext x (List.mem_cons_of_mem _ member)
          · exact fun x member => sameJoining x (List.mem_cons_of_mem _ member)

/-- The successor that the first member knows is the second one, and it has joined. -/
theorem Lagging.second (lagging : Lagging next joining (a :: queue)) (known : next a = some b) :
    ∃ rest, queue = b :: rest ∧ joining b = none := by
  cases queue with
  | nil => cases Eq.trans (Eq.symm lagging) known
  | cons second rest =>
      rcases lagging.1 with ⟨_, unknown⟩ | ⟨joined, same⟩
      · cases unknown.symm.trans known
      · obtain rfl := Option.some.inj (same.symm.trans known)
        exact ⟨rest, rfl, joined⟩

/-- The predecessor of a newcomer is the member it is joining, which has no successor yet. -/
theorem Lagging.predecessor (lagging : Lagging next joining queue) (member : b ∈ queue.tail)
    (joins : joining b = some a) : a ∈ queue ∧ next a = none := by
  induction queue with
  | nil => cases member
  | cons first rest inductionHypothesis =>
      cases rest with
      | nil => cases member
      | cons second behind =>
          rcases List.mem_cons.mp member with rfl | deeper
          · rcases lagging.1 with ⟨same, unknown⟩ | ⟨joined, _⟩
            · obtain rfl := Option.some.inj (same.symm.trans joins)
              exact ⟨List.mem_cons_self, unknown⟩
            · cases joined.symm.trans joins
          · obtain ⟨found, unknown⟩ := inductionHypothesis lagging.2 deeper
            exact ⟨List.mem_cons_of_mem _ found, unknown⟩

section Change

variable [DecidableEq Node]

/-- A newcomer behind the last member. -/
theorem Lagging.push (lagging : Lagging next joining queue) {x : Node} (fresh : x ∉ queue)
    (last : queue.getLast? = some a) (alone : next x = none) :
    Lagging next (Function.update joining x (some a)) (queue ++ [x]) := by
  induction queue with
  | nil => cases last
  | cons first rest inductionHypothesis =>
      have freshRest : x ∉ rest := fun member => fresh (List.mem_cons_of_mem _ member)
      cases rest with
      | nil =>
          obtain rfl := Option.some.inj last
          exact ⟨.inl ⟨Function.update_self .., lagging⟩, alone⟩
      | cons b behind =>
          rw [List.getLast?_cons_cons] at last
          have apart : b ≠ x := fun same => freshRest (same ▸ List.mem_cons_self)
          refine ⟨?_, inductionHypothesis lagging.2 freshRest last⟩
          rw [Function.update_of_ne apart]
          exact lagging.1

/-- A newcomer tells its predecessor. -/
theorem Lagging.link (lagging : Lagging next joining queue) (distinct : queue.Nodup)
    (member : b ∈ queue.tail) (joins : joining b = some a) :
    Lagging (Function.update next a (some b)) (Function.update joining b none) queue := by
  induction queue with
  | nil => trivial
  | cons first rest inductionHypothesis =>
      cases rest with
      | nil => cases member
      | cons second behind =>
          obtain ⟨notFirst, distinctRest⟩ := List.nodup_cons.mp distinct
          rcases List.mem_cons.mp member with rfl | deeper
          · -- `first` is the predecessor, and nothing changes behind the newcomer
            have same : a = first := by
              rcases lagging.1 with ⟨other, _⟩ | ⟨joined, _⟩
              · exact Option.some.inj (joins.symm.trans other)
              · cases joined.symm.trans joins
            subst same
            refine ⟨.inr ⟨Function.update_self .., Function.update_self ..⟩,
              lagging.2.congr (fun x inRest => ?_) (fun x inRest => ?_)⟩
            · have apart : x ≠ a := fun same => notFirst (same ▸ inRest)
              exact Function.update_of_ne apart _ _
            · have apart : x ≠ b := fun same => (List.nodup_cons.mp distinctRest).1 (same ▸ inRest)
              exact Function.update_of_ne apart _ _
          · have inRest : a ∈ second :: behind := (lagging.2.predecessor deeper joins).1
            have notSecond : second ≠ b := fun same =>
              (List.nodup_cons.mp distinctRest).1 (same ▸ deeper)
            have apart : first ≠ a := fun same => notFirst (same ▸ inRest)
            refine ⟨?_, inductionHypothesis lagging.2 distinctRest deeper⟩
            rw [Function.update_of_ne apart, Function.update_of_ne notSecond]
            exact lagging.1

end Change

end Lupin.LaggingQueue
