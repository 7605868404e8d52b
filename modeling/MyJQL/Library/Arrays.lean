import Mathlib

/-!
# Arrays and counting loops

An array is a function on indices; who uses it checks the bounds. `Holds` says which
list stands at its front. The loops are those of C: a counter that runs up to a value it
must meet, or down, or up to and including a value. A loop that moves a range of entries
is a `blit`.
-/

namespace MyJQL.Library

variable {α σ : Type}

/-! ## Loops -/

/-- The body for `start`, `start + 1`, …, `count` times. -/
def countUp (body : Nat → σ → Option σ) : Nat → Nat → σ → Option σ
  | _, 0, state => some state
  | index, count + 1, state => (body index state).bind (countUp body (index + 1) count)

/-- The body for `start`, `start - 1`, …, `count` times. -/
def countDown (body : Nat → σ → Option σ) : Nat → Nat → σ → Option σ
  | _, 0, state => some state
  | index, count + 1, state => (body index state).bind (countDown body (index - 1) count)

/-- `for (i = start; i != stop; i++)`; a counter that starts behind `stop` does not meet it. -/
def forNe (start stop : Nat) (body : Nat → σ → Option σ) (state : σ) : Option σ :=
  if start ≤ stop then countUp body start (stop - start) state else none

/-- `for (i = start; i > stop; i--)`. -/
def forGt (start stop : Nat) (body : Nat → σ → Option σ) (state : σ) : Option σ :=
  countDown body start (start - stop) state

/-- `for (i = start; i <= stop; i++)`. -/
def forLe (start stop : Nat) (body : Nat → σ → Option σ) (state : σ) : Option σ :=
  countUp body start (stop + 1 - start) state

section Loops

variable {body : Nat → σ → Option σ} (states : Nat → σ)

/-- A loop whose states are known one by one. -/
theorem countUp_eq (start count : Nat)
    (step : ∀ index, index < count → body (start + index) (states index) = some (states (index + 1))) :
    countUp body start count (states 0) = some (states count) := by
  induction count generalizing start states with
  | zero => rfl
  | succ count ih =>
      have here := step 0 (Nat.succ_pos count)
      rw [Nat.add_zero] at here
      have rest : countUp body (start + 1) count (states 1) = some (states (count + 1)) := by
        apply ih (fun index => states (index + 1)) (start + 1)
        intro index less
        have next := step (index + 1) (Nat.succ_lt_succ less)
        rwa [Nat.add_comm index 1, ← Nat.add_assoc, Nat.add_comm 1 index] at next
      rw [countUp, here, Option.bind_some, rest]

theorem countDown_eq (start count : Nat)
    (step : ∀ index, index < count → body (start - index) (states index) = some (states (index + 1))) :
    countDown body start count (states 0) = some (states count) := by
  induction count generalizing start states with
  | zero => rfl
  | succ count ih =>
      have here := step 0 (Nat.succ_pos count)
      rw [Nat.sub_zero] at here
      have rest : countDown body (start - 1) count (states 1) = some (states (count + 1)) := by
        apply ih (fun index => states (index + 1)) (start - 1)
        intro index less
        have next := step (index + 1) (Nat.succ_lt_succ less)
        rwa [Nat.add_comm index 1, ← Nat.sub_sub, Nat.add_comm 1 index] at next
      rw [countDown, here, Option.bind_some, rest]

variable {states} {state final : σ} {start stop : Nat}

theorem forNe_eq (states : Nat → σ) (order : start ≤ stop) (first : states 0 = state)
    (last : states (stop - start) = final)
    (step : ∀ index, index < stop - start → body (start + index) (states index) =
      some (states (index + 1))) : forNe start stop body state = some final := by
  rw [forNe, if_pos order, ← first, ← last]
  exact countUp_eq states start (stop - start) step

theorem forGt_eq (states : Nat → σ) (first : states 0 = state) (last : states (start - stop) = final)
    (step : ∀ index, index < start - stop → body (start - index) (states index) =
      some (states (index + 1))) : forGt start stop body state = some final := by
  rw [forGt, ← first, ← last]
  exact countDown_eq states start (start - stop) step

theorem forLe_eq (states : Nat → σ) (first : states 0 = state) (last : states (stop + 1 - start) = final)
    (step : ∀ index, index < stop + 1 - start → body (start + index) (states index) =
      some (states (index + 1))) : forLe start stop body state = some final := by
  rw [forLe, ← first, ← last]
  exact countUp_eq states start (stop + 1 - start) step

end Loops

/-- The continuation of a computation that has succeeded. -/
theorem some_bind_eq {β : Type} (value : α) (next : α → Option β) : (some value >>= next) = next value := rfl

/-! ## Arrays -/

/-- The array starts with this list. -/
def Holds (array : Nat → α) (list : List α) : Prop :=
  ∀ index, index < list.length → list[index]? = some (array index)

/-- The array after `count` entries of another have been copied into it. -/
def blit (source target : Nat → α) (dest origin count : Nat) : Nat → α := fun index =>
  if dest ≤ index ∧ index < dest + count then source (index - dest + origin) else target index

@[simp]
theorem blit_zero (source target : Nat → α) (dest origin : Nat) :
    blit source target dest origin 0 = target := by
  funext index
  unfold blit
  rw [if_neg (by omega)]

end MyJQL.Library
