import Mathlib

/-!
# Who owns the cells of a heap

A heap is a partial function from addresses. An account of it lists the addresses in use,
each once, so that two owners of one cell, a cell without an owner and an owner of a cell
that has been freed are all ruled out.
-/

namespace MyJQL.Library

/-- The cells in use are these, each of them counted once. -/
structure Owns {A V : Type} (heap : A → Option V) (cells : Multiset A) : Prop where
  once : cells.Nodup
  live : ∀ cell, heap cell ≠ none ↔ cell ∈ cells

namespace Owns

variable {A V : Type} {heap heap' : A → Option V} {cells cells' new gone : Multiset A} {cell : A} {content : V}

theorem empty : Owns (fun _ => none : A → Option V) 0 := by
  refine ⟨Multiset.nodup_zero, fun cell => ?_⟩
  exact iff_of_false (not_not.mpr rfl) (Multiset.notMem_zero cell)

/-- The heap that nobody owns a cell of. -/
theorem eq_none (owns : Owns heap 0) : heap = fun _ => none := by
  funext cell
  by_contra used
  exact Multiset.notMem_zero cell ((owns.live cell).mp used)

theorem congr (owns : Owns heap cells) (same : cells = cells') : Owns heap cells' := same ▸ owns

theorem live_of_mem (owns : Owns heap cells) (member : cell ∈ cells) : heap cell ≠ none := (owns.live cell).mpr member

theorem fresh (owns : Owns heap cells) (unused : heap cell = none) : cell ∉ cells :=
  fun member => owns.live_of_mem member unused

/-- New cells come to an owner. -/
theorem add (owns : Owns heap cells) (distinct : new.Nodup) (unused : ∀ cell ∈ new, heap cell = none)
    (used : ∀ cell ∈ new, heap' cell ≠ none) (others : ∀ cell ∉ new, heap' cell = heap cell) :
    Owns heap' (new + cells) := by
  refine ⟨?_, fun cell => ?_⟩
  · refine Multiset.nodup_add.mpr ⟨distinct, owns.once, Multiset.disjoint_left.mpr ?_⟩
    exact fun member => owns.fresh (unused _ member)
  · rw [Multiset.mem_add]
    by_cases member : cell ∈ new
    · exact iff_of_true (used cell member) (.inl member)
    · rw [others cell member, owns.live cell]
      exact ⟨.inr, fun either => either.resolve_left member⟩

/-- An owner gives its cells up. -/
theorem remove (owns : Owns heap (gone + cells)) (freed : ∀ cell ∈ gone, heap' cell = none)
    (others : ∀ cell ∉ gone, heap' cell = heap cell) : Owns heap' cells := by
  obtain ⟨-, distinct, apart⟩ := Multiset.nodup_add.mp owns.once
  refine ⟨distinct, fun cell => ?_⟩
  by_cases member : cell ∈ gone
  · rw [freed cell member]
    exact iff_of_false (not_not.mpr rfl) (Multiset.disjoint_left.mp apart member)
  · rw [others cell member, owns.live cell, Multiset.mem_add]
    exact ⟨fun either => either.resolve_left member, .inr⟩

section Update

variable [DecidableEq A]

theorem store (owns : Owns heap cells) (unused : heap cell = none) :
    Owns (Function.update heap cell (some content)) (cell ::ₘ cells) := by
  rw [← Multiset.singleton_add]
  refine owns.add (Multiset.nodup_singleton cell) ?_ ?_ ?_
  · intro other member
    rw [Multiset.mem_singleton.mp member]
    exact unused
  · intro other member
    rw [Multiset.mem_singleton.mp member, Function.update_self]
    exact Option.some_ne_none content
  · exact fun other absent => Function.update_of_ne (fun same => absent (Multiset.mem_singleton.mpr same)) _ _

theorem free (owns : Owns heap (cell ::ₘ cells)) : Owns (Function.update heap cell none) cells := by
  rw [← Multiset.singleton_add] at owns
  refine owns.remove ?_ ?_
  · intro other member
    rw [Multiset.mem_singleton.mp member, Function.update_self]
  · exact fun other absent => Function.update_of_ne (fun same => absent (Multiset.mem_singleton.mpr same)) _ _

end Update

end Owns

end MyJQL.Library
