import Mathlib.Data.List.Basic
import Mathlib.Tactic.Common

/-!
# Doubly linked lists

The links of a list of nodes, given as functions from a node to its neighbours. A
segment is linked between the node before it and the node after it, so that segments
compose.
-/

namespace Lupin.LinkedList

variable {α : Type}

/-- The segment is linked in both directions between `before` and `after`. -/
def Linked (next prev : α → α) : α → List α → α → Prop
  | _, [], _ => True
  | before, node :: rest, after =>
      prev node = before ∧ next node = rest.headD after ∧ Linked next prev node rest after

variable {next prev next' prev' : α → α} {before after node : α} {nodes rest : List α}

@[simp] theorem linked_nil : Linked next prev before [] after := trivial

@[simp] theorem linked_cons :
    Linked next prev before (node :: rest) after ↔
      prev node = before ∧ next node = rest.headD after ∧ Linked next prev node rest after :=
  Iff.rfl

/-- Segments compose where they meet. -/
theorem linked_append :
    Linked next prev before (nodes ++ rest) after ↔
      Linked next prev before nodes (rest.headD after) ∧
      Linked next prev (nodes.getLastD before) rest after := by
  induction nodes generalizing before with
  | nil => simp
  | cons node nodes inductionHypothesis =>
      have first : (nodes ++ rest).headD after = nodes.headD (rest.headD after) := by
        cases nodes <;> rfl
      have last : (node :: nodes).getLastD before = nodes.getLastD node := by
        cases nodes <;> rfl
      rw [List.cons_append, linked_cons, linked_cons, inductionHypothesis, first, last]
      simp only [and_assoc]

/-- Only the links of the nodes matter. -/
theorem Linked.congr (linked : Linked next prev before nodes after)
    (nextSame : ∀ node ∈ nodes, next' node = next node)
    (prevSame : ∀ node ∈ nodes, prev' node = prev node) :
    Linked next' prev' before nodes after := by
  induction nodes generalizing before with
  | nil => trivial
  | cons node rest inductionHypothesis =>
      obtain ⟨prevLink, nextLink, restLinked⟩ := linked
      refine ⟨?_, ?_, ?_⟩
      · rw [prevSame node List.mem_cons_self, prevLink]
      · rw [nextSame node List.mem_cons_self, nextLink]
      · exact inductionHypothesis restLinked
          (fun other member => nextSame other (List.mem_cons_of_mem _ member))
          (fun other member => prevSame other (List.mem_cons_of_mem _ member))

/-- A node is put behind the last one, `last`, whose link to the next node is changed. -/
theorem Linked.push {last : α} (linked : Linked next prev before (nodes ++ [last]) after)
    {after' : α} (nextSame : ∀ other ∈ nodes, next' other = next other)
    (prevSame : ∀ other ∈ nodes ++ [last], prev' other = prev other)
    (nextLast : next' last = node) (nextNode : next' node = after') (prevNode : prev' node = last) :
    Linked next' prev' before (nodes ++ [last, node]) after' := by
  obtain ⟨front, prevLast, _⟩ := linked_append.mp linked
  refine linked_append.mpr ⟨?_, ?_, nextLast, prevNode, nextNode, trivial⟩
  · exact front.congr nextSame fun other member =>
      prevSame other (List.mem_append_left _ member)
  · rw [prevSame last (by simp), prevLast]

/-- A node between two others is taken out by linking these to each other. -/
theorem Linked.remove {left right : α} {front back : List α}
    (linked : Linked next prev before (front ++ left :: node :: right :: back) after)
    (distinct : (front ++ left :: node :: right :: back).Nodup)
    (nextSame : ∀ other ∈ front ++ left :: right :: back, other ≠ left → next' other = next other)
    (prevSame : ∀ other ∈ front ++ left :: right :: back, other ≠ right → prev' other = prev other)
    (nextLeft : next' left = right) (prevRight : prev' right = left) :
    Linked next' prev' before (front ++ left :: right :: back) after := by
  obtain ⟨frontLinked, prevLeft, _, _, _, _, nextRight, backLinked⟩ := linked_append.mp linked
  rw [List.nodup_append, List.nodup_cons, List.nodup_cons, List.nodup_cons] at distinct
  obtain ⟨_, ⟨leftFresh, _, rightFresh, _⟩, apart⟩ := distinct
  have leftRight : left ≠ right := fun same => leftFresh (by simp [same])
  have inFront : ∀ other ∈ front, other ≠ left ∧ other ≠ right := fun other member =>
    ⟨apart other member left (by simp), apart other member right (by simp)⟩
  have inBack : ∀ other ∈ back, other ≠ left ∧ other ≠ right := by
    refine fun other member => ⟨?_, ?_⟩
    · rintro rfl
      exact leftFresh (by simp [member])
    · rintro rfl
      exact rightFresh member
  refine linked_append.mpr ⟨frontLinked.congr ?_ ?_, ?_, nextLeft, prevRight, ?_,
    backLinked.congr ?_ ?_⟩
  · exact fun other member => nextSame other (by simp [member]) (inFront other member).1
  · exact fun other member => prevSame other (by simp [member]) (inFront other member).2
  · rw [prevSame left (by simp) leftRight, prevLeft]
  · rw [nextSame right (by simp) leftRight.symm, nextRight]
  · exact fun other member => nextSame other (by simp [member]) (inBack other member).1
  · exact fun other member => prevSame other (by simp [member]) (inBack other member).2

/-- A list without one of its nodes. -/
theorem erase_between [DecidableEq α] {front back : List α}
    (distinct : (front ++ node :: back).Nodup) :
    (front ++ node :: back).erase node = front ++ back := by
  have absent : node ∉ front := fun member =>
    (List.nodup_append.mp distinct).2.2 node member node List.mem_cons_self rfl
  rw [List.erase_append_right _ absent, List.erase_cons_head]

/-- The places a node can have in a list. -/
theorem places_of_mem (member : node ∈ nodes) :
    nodes = [node] ∨ (∃ right back, nodes = node :: right :: back) ∨
      (∃ front left, nodes = front ++ [left, node]) ∨
      ∃ front left right back, nodes = front ++ left :: node :: right :: back := by
  obtain ⟨front, back, rfl⟩ := List.append_of_mem member
  rcases List.eq_nil_or_concat' front with rfl | ⟨front, left, rfl⟩
  · cases back with
    | nil => exact .inl rfl
    | cons right back => exact .inr (.inl ⟨right, back, rfl⟩)
  · cases back with
    | nil => exact .inr (.inr (.inl ⟨front, left, by simp⟩))
    | cons right back => exact .inr (.inr (.inr ⟨front, left, right, back, by simp⟩))

end Lupin.LinkedList
