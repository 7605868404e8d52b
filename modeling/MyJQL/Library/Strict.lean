import MyJQL.Library.Cost

/-!
# Programs evaluated in order

A term is evaluated by name: what a program has written stays the whole run that wrote it until
somebody reads it. Here every effect and every state is looked at before the next one, which
changes nothing but the order of evaluation, so that a long run is one small step after another.
-/

namespace MyJQL.Library

/-- Values that can be looked at before going on. -/
class Strict (α : Type) where
  look : {γ : Type} → α → (α → γ) → γ
  look_eq : ∀ {γ : Type} (value : α) (next : α → γ), look value next = next value

namespace Strict

variable {α β γ : Type}

instance : Strict Bool where
  look
    | true, next => next true
    | false, next => next false
  look_eq value next := by cases value <;> rfl

instance : Strict Nat where
  look
    | 0, next => next 0
    | count + 1, next => next (count + 1)
  look_eq value next := by cases value <;> rfl

instance : Strict Int where
  look
    | .ofNat value, next => look value fun value => next (.ofNat value)
    | .negSucc value, next => look value fun value => next (.negSucc value)
  look_eq value next := by cases value <;> simp only [look_eq]

instance [Strict α] [Strict β] : Strict (α × β) where
  look
    | (first, second), next => look first fun first => look second fun second => next (first, second)
  look_eq pair next := by simp only [look_eq]

def lookList [Strict α] : List α → (List α → γ) → γ
  | [], next => next []
  | value :: values, next => look value fun value => lookList values fun values => next (value :: values)

theorem lookList_eq [Strict α] (values : List α) (next : List α → γ) : lookList values next = next values := by
  induction values generalizing next with
  | nil => rfl
  | cons value values ih => simp only [lookList, look_eq, ih]

/-- A function is looked at below a bound. -/
def lookBelow [Strict α] (bound : Nat) (values : Nat → α) (next : (Nat → α) → γ) : γ :=
  lookList ((List.range bound).map values) fun known => next fun index => (known[index]?).getD (values index)

theorem lookBelow_eq [Strict α] (bound : Nat) (values : Nat → α) (next : (Nat → α) → γ) :
    lookBelow bound values next = next values := by
  rw [lookBelow, lookList_eq]
  congr
  funext index
  rw [List.getElem?_map]
  rcases lt_or_ge index bound with below | above
  · rw [List.getElem?_range below]
    rfl
  · rw [List.getElem?_eq_none (by simpa using above)]
    rfl

instance {E F : Type → Type} [Strict (E β)] [Strict (F β)] : Strict (SumOp E F β) where
  look
    | .left effect, next => look effect fun effect => next (.left effect)
    | .right effect, next => look effect fun effect => next (.right effect)
  look_eq effect next := by cases effect <;> simp only [look_eq]

end Strict

namespace Prog

variable {E : Type → Type} {σ α : Type} [∀ β, Strict (E β)] [Strict σ]

/-- A run and what it costs, on top of what has been spent. -/
def evaluate (weight : ∀ β : Type, E β → Nat) (meaning : Meaning E σ) : Prog E α → Nat → σ → Option (α × σ × Nat)
  | .pure value, spent, state => some (value, state, spent)
  | .fail, _, _ => none
  | .op effect next, spent, state =>
      Strict.look effect fun effect =>
        match meaning _ effect state with
        | none => none
        | some (result, after) =>
            Strict.look after fun after =>
              Strict.look (spent + weight _ effect) fun spent => (next result).evaluate weight meaning spent after

theorem evaluate_eq (weight : ∀ β : Type, E β → Nat) (meaning : Meaning E σ) (program : Prog E α) (spent : Nat) (state : σ) :
    program.evaluate weight meaning spent state =
      (program.run meaning state).map fun result => (result.1, result.2, spent + program.cost weight meaning state) := by
  induction program generalizing spent state with
  | pure value => rfl
  | fail => rfl
  | op effect next ih =>
      rw [evaluate, Strict.look_eq, run, cost]
      cases step : meaning _ effect state with
      | none => rfl
      | some result => simp only [Strict.look_eq, ih, Option.bind_some, Nat.add_assoc]

/-- What an evaluation shows is true of the run. -/
theorem exists_of_evaluate {weight : ∀ β : Type, E β → Nat} {meaning : Meaning E σ} {program : Prog E α} {spent : Nat}
    {state : σ} {test : α × σ × Nat → Bool} (tested : (program.evaluate weight meaning spent state).any test = true) :
    ∃ value after, program.run meaning state = some (value, after) ∧
      test (value, after, spent + program.cost weight meaning state) = true := by
  rw [evaluate_eq] at tested
  cases ran : program.run meaning state with
  | none =>
      rw [ran] at tested
      cases tested
  | some result =>
      rw [ran] at tested
      exact ⟨result.1, result.2, rfl, tested⟩

end Prog

end MyJQL.Library
