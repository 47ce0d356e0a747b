import Lupin.Alloc.Free
import Mathlib.Data.List.TakeWhile

/-!
# The directory of named objects

What the list of headers is for. `record_list_queue_remove` leaves `pe_tail` alone, so when the
last of several headers has been taken off, the next ones are linked behind it and found by
nobody: the directory is stale, and takes no entry until it has become empty.
-/

namespace Lupin.Alloc

open Lupin.Memory Lupin.Buddy Lupin.Log Lupin.LinkedList

theorem ProgId.toCString_inj {name other : ProgId} :
    name.toCString = other.toCString ↔ name = other := by
  cases name
  cases other
  simp

/-- The named objects, oldest first. -/
structure Directory where
  entries : List Object
  stale : Bool

namespace Directory

def empty : Directory := ⟨[], false⟩

/-- The oldest object of this name. -/
def lookup (dir : Directory) (name : ProgId) : Option Object :=
  dir.entries.find? fun object => decide (object.name = name)

def insert (dir : Directory) (object : Object) : Directory :=
  if dir.stale then dir else ⟨dir.entries ++ [object], false⟩

/-- Without the oldest object of this name. -/
def remove (dir : Directory) (name : ProgId) : Directory :=
  let others := fun object : Object => !decide (object.name = name)
  match dir.entries.dropWhile others with
  | [] => dir
  | _ :: back =>
      let rest := dir.entries.takeWhile others ++ back
      ⟨rest, !rest.isEmpty && (dir.stale || back.isEmpty)⟩

variable {dir : Directory} {name : ProgId} {front back : List Object} {object : Object}

theorem lookup_none (others : ∀ o ∈ dir.entries, o.name ≠ name) : dir.lookup name = none :=
  List.find?_eq_none.mpr fun o member => by simpa using others o member

theorem remove_none (others : ∀ o ∈ dir.entries, o.name ≠ name) : dir.remove name = dir := by
  have all : dir.entries.dropWhile (fun o : Object => !decide (o.name = name)) = [] :=
    List.dropWhile_eq_nil_iff.mpr fun o member => by simpa using others o member
  simp only [remove, all]

theorem lookup_some (split : dir.entries = front ++ object :: back)
    (others : ∀ o ∈ front, o.name ≠ name) (here : object.name = name) :
    dir.lookup name = some object := by
  rw [lookup, split, List.find?_append, List.find?_eq_none.mpr fun o member => by
    simpa using others o member, Option.none_or, List.find?_cons_of_pos (by simpa using here)]

theorem remove_some (split : dir.entries = front ++ object :: back)
    (others : ∀ o ∈ front, o.name ≠ name) (here : object.name = name) :
    dir.remove name = ⟨front ++ back, !(front ++ back).isEmpty && (dir.stale || back.isEmpty)⟩ := by
  have before : ∀ o ∈ front, (!decide (o.name = name)) = true := fun o member => by
    simpa using others o member
  have drop :
      dir.entries.dropWhile (fun o : Object => !decide (o.name = name)) = object :: back := by
    rw [split, List.dropWhile_append_of_pos before,
      List.dropWhile_cons_of_neg (by simpa using here)]
  have take : dir.entries.takeWhile (fun o : Object => !decide (o.name = name)) = front := by
    rw [split, List.takeWhile_append_of_pos before,
      List.takeWhile_cons_of_neg (by simpa using here), List.append_nil]
  simp only [remove, drop, take]

theorem others_of_lookup (missing : dir.lookup name = none) : ∀ o ∈ dir.entries, o.name ≠ name :=
  fun o member => by simpa using List.find?_eq_none.mp missing o member

theorem split_of_lookup (isListed : dir.lookup name = some object) :
    object.name = name ∧ ∃ front back, dir.entries = front ++ object :: back ∧
      ∀ o ∈ front, o.name ≠ name := by
  obtain ⟨named, front, back, split, others⟩ := List.find?_eq_some_iff_append.mp isListed
  exact ⟨by simpa using named, front, back, split, fun o member => by simpa using others o member⟩

theorem remove_subset (dir : Directory) (name : ProgId) :
    (dir.remove name).entries ⊆ dir.entries := by
  cases isListed : dir.lookup name with
  | none =>
      rw [remove_none (others_of_lookup isListed)]
      exact List.Subset.refl _
  | some object =>
      obtain ⟨named, front, back, split, others⟩ := split_of_lookup isListed
      rw [remove_some split others named, split]
      exact (List.Sublist.append (.refl _) (List.sublist_cons_self _ _)).subset

/-- A directory is stale until it has no entries. -/
theorem remove_of_stale (stale : dir.stale = true) (name : ProgId)
    (some : (dir.remove name).entries ≠ []) : (dir.remove name).stale = true := by
  cases isListed : dir.lookup name with
  | none =>
      rw [remove_none (others_of_lookup isListed)]
      exact stale
  | some object =>
      obtain ⟨named, front, back, split, others⟩ := split_of_lookup isListed
      rw [remove_some split others named] at some ⊢
      have notEmpty : (front ++ back).isEmpty = false := by simpa using some
      simp [notEmpty, stale]

end Directory

/-! ## The list of headers as a directory -/

/-- The headers on the list describe the entries, in this order. The directory is stale if `pe_tail`
is not on the list. -/
structure DirectoryAt (s : Mapping) (m : Mem) (headers : List Nat) (dir : Directory) : Prop where
  entries : List.Forall₂ (ObjectAt m) headers dir.entries
  stale : dir.stale = true ↔ headers ≠ [] ∧ m.read 8 (peTail s.shmem.objHeaders) ∉ headers

section Search

variable {s : Mapping} {m m' : Mem} {pages pages' headers : List Nat} {dir : Directory} {h : Nat}

/-- The search by name goes through the entries. -/
theorem find_split {entries : List Object} (related : List.Forall₂ (ObjectAt m) headers entries)
    (name : ProgId) :
    (headers.find? (namedAt m name.toCString) = none ∧ ∀ o ∈ entries, o.name ≠ name) ∨
      ∃ hFront h hBack front object back, headers = hFront ++ h :: hBack ∧
        entries = front ++ object :: back ∧ List.Forall₂ (ObjectAt m) hFront front ∧
        ObjectAt m h object ∧ List.Forall₂ (ObjectAt m) hBack back ∧
        (∀ o ∈ front, o.name ≠ name) ∧ object.name = name ∧
        headers.find? (namedAt m name.toCString) = some h := by
  induction related with
  | nil => exact .inl ⟨rfl, by simp⟩
  | @cons h object hRest rest here others inductionHypothesis =>
      by_cases named : object.name = name
      · refine .inr
          ⟨[], h, hRest, [], object, rest, rfl, rfl, .nil, here, others, by simp, named, ?_⟩
        exact List.find?_cons_of_pos (here.name.namedAt_iff.mpr (by rw [named]))
      · have skip : ¬ namedAt m name.toCString h = true := fun isNamed =>
          named (ProgId.toCString_inj.mp (here.name.namedAt_iff.mp isNamed))
        rcases inductionHypothesis with ⟨missing, none⟩ | ⟨hFront, h', hBack, front, object', back,
          rfl, rfl, before, here', after, first, named', found⟩
        · refine .inl ⟨by rw [List.find?_cons_of_neg skip, missing], ?_⟩
          exact List.forall_mem_cons.mpr ⟨named, none⟩
        · refine .inr ⟨h :: hFront, h', hBack, object :: front, object', back, rfl, rfl,
            .cons here before, here', after, List.forall_mem_cons.mpr ⟨named, first⟩, named', ?_⟩
          rw [← found]
          exact List.find?_cons_of_neg skip

/-- Entries stay with their headers as long as nobody writes to these. -/
theorem forall₂_congr {entries : List Object} (related : List.Forall₂ (ObjectAt m) headers entries)
    (same : ∀ x ∈ headers, ∀ a, x + 16 ≤ a → a < x + 48 → m' a = m a) :
    List.Forall₂ (ObjectAt m') headers entries := by
  induction related with
  | nil => exact .nil
  | cons here _ inductionHypothesis =>
      obtain ⟨first, others⟩ := List.forall_mem_cons.mp same
      exact .cons (here.congr first) (inductionHypothesis others)

theorem DirectoryAt.congr (directory : DirectoryAt s m headers dir)
    (bodies : ∀ x ∈ headers, ∀ a, x + 16 ≤ a → a < x + 48 → m' a = m a)
    (tail : m'.read 8 (peTail s.shmem.objHeaders) = m.read 8 (peTail s.shmem.objHeaders)) :
    DirectoryAt s m' headers dir :=
  ⟨forall₂_congr directory.entries bodies, by rw [tail]; exact directory.stale⟩

/-- The last header, unless the directory is stale. -/
theorem DirectoryAt.tail_eq (directory : DirectoryAt s m headers dir)
    (shape : Shape s m pages headers) (fresh : dir.stale = false) (some : headers ≠ []) :
    m.read 8 (peTail s.shmem.objHeaders) = headers.getLastD 0 := by
  refine (shape.tail some).resolve_right fun notListed => ?_
  exact absurd (directory.stale.mpr ⟨some, notListed⟩) (by simp [fresh])

/-- An object that is placed is entered, unless the directory is stale. -/
theorem DirectoryAt.place (directory : DirectoryAt s m headers dir)
    (shape : Shape s m pages headers) {object : Object} {machineId : Nat}
    (placed : Placed s m m' pages pages' headers h object machineId) :
    DirectoryAt s m' (appendBehind headers (m.read 8 (peTail s.shmem.objHeaders)) h)
      (dir.insert object) := by
  have before := forall₂_congr directory.entries fun x listed =>
    placed.others x (shape.inPage listed) fun isNew => placed.fresh (isNew ▸ listed)
  unfold appendBehind Directory.insert
  cases stale : dir.stale with
  | true =>
      obtain ⟨some, notListed⟩ := directory.stale.mp stale
      have notLast : headers.getLastD (m.read 8 (peTail s.shmem.objHeaders)) ≠
          m.read 8 (peTail s.shmem.objHeaders) := by
        intro isLast
        obtain ⟨front, last, rfl⟩ := (List.eq_nil_or_concat' headers).resolve_left some
        rw [List.getLastD_concat] at isLast
        exact notListed (isLast ▸ by simp)
      rw [if_neg notLast, if_pos rfl]
      refine ⟨before, ?_⟩
      rw [placed.tail, stale]
      exact ⟨fun _ => ⟨some, placed.fresh⟩, fun _ => rfl⟩
  | false =>
      have isLast : headers.getLastD (m.read 8 (peTail s.shmem.objHeaders)) =
          m.read 8 (peTail s.shmem.objHeaders) := by
        rcases List.eq_nil_or_concat' headers with rfl | ⟨front, last, rfl⟩
        · rfl
        · rw [directory.tail_eq shape stale (by simp), List.getLastD_concat, List.getLastD_concat]
      rw [if_pos isLast, if_neg (by simp)]
      refine ⟨List.rel_append before (.cons placed.object .nil), ?_⟩
      rw [placed.tail]
      simp

/-- A header that is taken off the list takes the oldest entry of its name with it. -/
theorem DirectoryAt.free (directory : DirectoryAt s m headers dir) (shape : Shape s m pages headers)
    {name : ProgId} (found : headers.find? (namedAt m name.toCString) = some h)
    (freed : Freed s m m' pages headers h) :
    DirectoryAt s m' (headers.erase h) (dir.remove name) := by
  have distinct := shape.headerList.nodup
  rcases find_split directory.entries name with ⟨missing, _⟩ | ⟨hFront, _, hBack, front, object,
    back,
    rfl, split, before, _, after, others, here, isFound⟩
  · exact absurd (found.symm.trans missing) (by simp)
  obtain rfl := Option.some.inj (found.symm.trans isFound)
  have bodies : ∀ x ∈ hFront ++ h :: hBack, ∀ a, x + 16 ≤ a → a < x + 48 → m' a = m a :=
    fun x listed => freed.bodies x (shape.inPage listed)
  obtain ⟨_, restDistinct, apart⟩ := List.nodup_append.mp distinct
  have notFront : h ∉ hFront := fun inFront => apart h inFront h List.mem_cons_self rfl
  have notBack : h ∉ hBack := (List.nodup_cons.mp restDistinct).1
  have rest : (hFront ++ h :: hBack).erase h = hFront ++ hBack := by
    rw [List.erase_append_right _ notFront, List.erase_cons_head]
  rw [rest, Directory.remove_some split others here]
  have related : List.Forall₂ (ObjectAt m) (hFront ++ hBack) (front ++ back) :=
    List.rel_append before after
  refine ⟨forall₂_congr related fun x listed => bodies x ?_, ?_⟩
  · rcases List.mem_append.mp listed with inFront | inBack
    · exact List.mem_append_left _ inFront
    · exact List.mem_append_right _ (List.mem_cons_of_mem _ inBack)
  · have isEmpty : ∀ {l : List Nat} {l' : List Object}, List.Forall₂ (ObjectAt m) l l' →
        (l'.isEmpty = true ↔ l = []) := by
      intro l l' same
      cases same <;> simp
    rw [freed.tail, Bool.and_eq_true, Bool.or_eq_true, Bool.not_eq_true', ← Bool.not_eq_true,
      isEmpty related, isEmpty after, directory.stale]
    refine and_congr_right fun some => ?_
    have whole : hFront ++ h :: hBack ≠ [] := by simp
    constructor
    · rintro (⟨_, notListed⟩ | rfl)
      · rintro listed
        rcases List.mem_append.mp listed with inFront | inBack
        · exact notListed (List.mem_append_left _ inFront)
        · exact notListed (List.mem_append_right _ (List.mem_cons_of_mem _ inBack))
      · rw [List.append_nil]
        rcases shape.tail whole with isLast | notListed
        · rw [List.getLastD_concat] at isLast
          exact isLast ▸ notFront
        · exact fun inFront => notListed (List.mem_append_left _ inFront)
    · intro notRest
      by_contra neither
      obtain ⟨listed, several⟩ := not_or.mp neither
      obtain ⟨hBack, last, rfl⟩ := (List.eq_nil_or_concat' hBack).resolve_left several
      have isLast := (shape.tail whole).resolve_right fun notListed => listed ⟨whole, notListed⟩
      rw [← List.cons_append, ← List.append_assoc, List.getLastD_concat] at isLast
      exact notRest (isLast ▸ by simp)

end Search

end Lupin.Alloc
