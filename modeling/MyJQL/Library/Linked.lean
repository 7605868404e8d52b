import Mathlib

/-!
# Singly linked lists threaded through a successor function

`Linked null next head cells` says that following `next` from `head` visits
exactly `cells` and then reads `null`.
-/

namespace MyJQL.Library

variable {α : Type}

def Linked (null : α) (next : α → α) : α → List α → Prop
  | head, [] => head = null
  | head, cell :: rest => head = cell ∧ Linked null next (next cell) rest

namespace Linked

variable {null head : α} {next next' : α → α} {cells : List α}

@[simp]
theorem nil_iff : Linked null next head [] ↔ head = null := Iff.rfl

@[simp]
theorem cons_iff {cell : α} {rest : List α} :
    Linked null next head (cell :: rest) ↔ head = cell ∧ Linked null next (next cell) rest := Iff.rfl

/-- Only the successors of the visited cells matter. -/
theorem congr (agree : ∀ cell ∈ cells, next' cell = next cell)
    (linked : Linked null next head cells) : Linked null next' head cells := by
  induction cells generalizing head with
  | nil => exact linked
  | cons cell rest ih =>
      obtain ⟨same, tail⟩ := linked
      refine ⟨same, ?_⟩
      rw [agree cell List.mem_cons_self]
      exact ih (fun other member => agree other (List.mem_cons_of_mem _ member)) tail

/-- A list whose cells all differ from `null` is empty exactly when its head is `null`. -/
theorem eq_nil_iff (proper : ∀ cell ∈ cells, cell ≠ null) (linked : Linked null next head cells) :
    cells = [] ↔ head = null := by
  cases cells with
  | nil => simpa using linked
  | cons cell rest =>
      obtain ⟨same, -⟩ := linked
      have different := proper cell List.mem_cons_self
      simp only [reduceCtorEq, false_iff, same]
      exact different

theorem exists_cons (present : head ≠ null) (linked : Linked null next head cells) :
    ∃ rest, cells = head :: rest ∧ Linked null next (next head) rest := by
  cases cells with
  | nil => exact absurd linked present
  | cons cell rest =>
      obtain ⟨same, tail⟩ := linked
      subst same
      exact ⟨rest, rfl, tail⟩

/-- The list from a visited cell on. -/
theorem suffix {before : List α} {cell : α} {after : List α}
    (linked : Linked null next head (before ++ cell :: after)) :
    Linked null next cell (cell :: after) := by
  induction before generalizing head with
  | nil =>
      obtain ⟨-, tail⟩ := linked
      exact ⟨rfl, tail⟩
  | cons first rest ih => exact ih linked.2

/-- Replacing the part of the list behind one cell. -/
theorem relink {before : List α} {cell : α} {after after' : List α}
    (fresh : cell ∉ before) (agree : ∀ other ∈ before, next' other = next other)
    (tail : Linked null next' (next' cell) after')
    (linked : Linked null next head (before ++ cell :: after)) :
    Linked null next' head (before ++ cell :: after') := by
  induction before generalizing head with
  | nil => exact ⟨linked.1, tail⟩
  | cons first rest ih =>
      refine ⟨linked.1, ?_⟩
      rw [agree first List.mem_cons_self]
      exact ih (fun member => fresh (List.mem_cons_of_mem _ member))
        (fun other member => agree other (List.mem_cons_of_mem _ member)) linked.2

/-- The visited cells are determined by the head. -/
theorem unique {other : List α} (proper : ∀ cell ∈ cells, cell ≠ null)
    (proper' : ∀ cell ∈ other, cell ≠ null)
    (linked : Linked null next head cells) (linked' : Linked null next head other) :
    cells = other := by
  induction cells generalizing head other with
  | nil => exact ((linked'.eq_nil_iff proper').mpr linked).symm
  | cons cell rest ih =>
      cases other with
      | nil => exact absurd (linked.1.symm.trans linked') (proper cell List.mem_cons_self)
      | cons first tail =>
          have same : cell = first := linked.1.symm.trans linked'.1
          subst same
          rw [ih (fun _ member => proper _ (List.mem_cons_of_mem _ member))
            (fun _ member => proper' _ (List.mem_cons_of_mem _ member)) linked.2 linked'.2]

end Linked

/-- Distinct integers in `[0, bound)` number at most `bound`. -/
theorem length_le_of_nodup_of_mem_range {numbers : List Int} {bound : Int}
    (distinct : numbers.Nodup) (within : ∀ number ∈ numbers, 0 ≤ number ∧ number < bound) :
    numbers.length ≤ bound.toNat := by
  have subset : numbers.toFinset ⊆ Finset.Ico 0 bound := by
    intro number member
    rw [Finset.mem_Ico]
    exact within number (List.mem_toFinset.mp member)
  have bounded := Finset.card_le_card subset
  rwa [List.toFinset_card_of_nodup distinct, Int.card_Ico, Int.sub_zero] at bounded

end MyJQL.Library
