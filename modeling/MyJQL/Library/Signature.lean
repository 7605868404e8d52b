import MyJQL.Library.Program

/-!
# Sums of signatures

A program over two signatures runs on a pair of states. A program over one of
them is carried into the sum, where it leaves the other state alone, and a logic
for the sum is put together from a logic for each part.
-/

namespace MyJQL.Library

/-- Effects from either of two signatures. -/
inductive SumOp (E F : Type → Type) : Type → Type where
  | left {β : Type} (effect : E β) : SumOp E F β
  | right {β : Type} (effect : F β) : SumOp E F β

variable {E F G : Type → Type} {σ τ α : Type}

/-- Each part acts on its own state. -/
def Meaning.sum (first : Meaning E σ) (second : Meaning F τ) : Meaning (SumOp E F) (σ × τ)
  | _, .left effect, state =>
      (first _ effect state.1).map fun result => (result.1, (result.2, state.2))
  | _, .right effect, state =>
      (second _ effect state.2).map fun result => (result.1, (state.1, result.2))

section Sum

variable {first : Meaning E σ} {second : Meaning F τ} {β : Type} {result : β} {before after : σ × τ}

/-- An effect of the one part leaves the state of the other as it is. -/
theorem Meaning.sum_left {effect : E β} (ran : first.sum second β (.left effect) before = some (result, after)) :
    first β effect before.1 = some (result, after.1) ∧ after.2 = before.2 := by
  obtain ⟨step, same, rest⟩ := Option.map_eq_some_iff.mp ran
  cases rest
  exact ⟨same, rfl⟩

theorem Meaning.sum_right {effect : F β} (ran : first.sum second β (.right effect) before = some (result, after)) :
    second β effect before.2 = some (result, after.2) ∧ after.1 = before.1 := by
  obtain ⟨step, same, rest⟩ := Option.map_eq_some_iff.mp ran
  cases rest
  exact ⟨same, rfl⟩

end Sum

/-- A guard on each part. -/
def SumOp.Guard (first : ∀ β : Type, E β → σ → Prop) (second : ∀ β : Type, F β → τ → Prop) :
    ∀ β : Type, SumOp E F β → σ × τ → Prop
  | _, .left effect, state => first _ effect state.1
  | _, .right effect, state => second _ effect state.2

namespace Logic

/-- Each part is read by its own logic. -/
def sum (first : Logic E σ) (second : Logic F τ) : Logic (SumOp E F) (σ × τ) where
  rule
    | _, .left effect, post, state =>
        first.rule _ effect (fun result after => post result (after, state.2)) state.1
    | _, .right effect, post, state =>
        second.rule _ effect (fun result after => post result (state.1, after)) state.2
  mono {_ effect _ _ _} imp holds := by
    cases effect with
    | left effect => exact first.mono (fun result after => imp result _) holds
    | right effect => exact second.mono (fun result after => imp result _) holds

/-- Simulations of the parts make a simulation of the sum. -/
theorem Simulates.sum {σ' τ' : Type} {first : Logic E σ} {second : Logic F τ}
    {first' : Logic E σ'} {second' : Logic F τ'} {related : σ → σ' → Prop}
    {related' : τ → τ' → Prop} (left : Simulates first first' related)
    (right : Simulates second second' related') :
    Simulates (first.sum second) (first'.sum second')
      (fun state state' => related state.1 state'.1 ∧ related' state.2 state'.2) := by
  intro β effect post state state' both holds
  cases effect with
  | left effect =>
      refine first'.mono ?_ (left effect _ state.1 state'.1 both.1 holds)
      rintro result after ⟨before, kept, ended⟩
      exact ⟨(before, state.2), ⟨kept, both.2⟩, ended⟩
  | right effect =>
      refine second'.mono ?_ (right effect _ state.2 state'.2 both.2 holds)
      rintro result after ⟨before, kept, ended⟩
      exact ⟨(state.1, before), ⟨both.1, kept⟩, ended⟩

theorem Simulates.refl (logic : Logic E σ) : Simulates logic logic Eq := by
  rintro β effect post left right rfl holds
  exact logic.mono (fun result after ended => ⟨after, rfl, ended⟩) holds

theorem Simulates.trans {ρ : Type} {first : Logic E σ} {second : Logic E τ} {third : Logic E ρ}
    {related : σ → τ → Prop} {related' : τ → ρ → Prop} (left : Simulates first second related)
    (right : Simulates second third related') :
    Simulates first third (fun state final => ∃ middle, related state middle ∧
      related' middle final) := by
  rintro β effect post state final ⟨middle, before, after⟩ holds
  refine third.mono ?_ (right effect _ middle final after (left effect post state middle before holds))
  rintro result last ⟨center, kept, start, kept', ended⟩
  exact ⟨start, ⟨center, kept', kept⟩, ended⟩

/-- The sum of two executable logics is the logic of the sum of their meanings. -/
theorem sum_ofMeaning (first : Meaning E σ) (second : Meaning F τ)
    (guard : ∀ β : Type, E β → σ → Prop) (guard' : ∀ β : Type, F β → τ → Prop) :
    Simulates ((ofMeaning first guard).sum (ofMeaning second guard'))
      (ofMeaning (first.sum second) (SumOp.Guard guard guard')) Eq := by
  rintro β effect post state state' rfl holds
  cases effect with
  | left effect =>
      obtain ⟨guarded, result, after, step, ended⟩ := holds
      refine ⟨guarded, result, (after, state.2), ?_, _, rfl, ended⟩
      simp only [Meaning.sum, step, Option.map_some]
  | right effect =>
      obtain ⟨guarded, result, after, step, ended⟩ := holds
      refine ⟨guarded, result, (state.1, after), ?_, _, rfl, ended⟩
      simp only [Meaning.sum, step, Option.map_some]

end Logic

namespace Prog

/-- A program over the left signature. -/
def onLeft (program : Prog E α) : Prog (SumOp E F) α :=
  program.interp fun _ effect => perform (.left effect)

/-- A program over the right signature. -/
def onRight (program : Prog F α) : Prog (SumOp E F) α :=
  program.interp fun _ effect => perform (.right effect)

@[simp]
theorem wp_onLeft (first : Logic E σ) (second : Logic F τ) (program : Prog E α)
    (post : α → σ × τ → Prop) (state : σ × τ) :
    (onLeft program : Prog (SumOp E F) α).wp (first.sum second) post state ↔
      program.wp first (fun result after => post result (after, state.2)) state.1 := by
  obtain ⟨left, right⟩ := state
  unfold onLeft
  rw [wp_interp]
  induction program generalizing left with
  | pure value => exact Iff.rfl
  | fail => exact Iff.rfl
  | op effect next ih =>
      constructor
      · exact first.mono fun result after => (ih result after).mp
      · exact first.mono fun result after => (ih result after).mpr

@[simp]
theorem wp_onRight (first : Logic E σ) (second : Logic F τ) (program : Prog F α)
    (post : α → σ × τ → Prop) (state : σ × τ) :
    (onRight program : Prog (SumOp E F) α).wp (first.sum second) post state ↔
      program.wp second (fun result after => post result (state.1, after)) state.2 := by
  obtain ⟨left, right⟩ := state
  unfold onRight
  rw [wp_interp]
  induction program generalizing right with
  | pure value => exact Iff.rfl
  | fail => exact Iff.rfl
  | op effect next ih =>
      constructor
      · exact second.mono fun result after => (ih result after).mp
      · exact second.mono fun result after => (ih result after).mpr

end Prog

end MyJQL.Library
