import MyJQL.Library.Signature

/-!
# Two parties on two queues

Each party reads the queue that the other writes. A party's step takes items from the
front of its queue and may not depend on what arrives behind them, so the steps of the
two parties commute: if one order of the steps ends, every order ends the same way.
-/

namespace MyJQL.Library

universe u v w

/-- A step takes a number of items from the front of a queue and appends items to the other. -/
structure Party (S : Type u) (B : Type w) where
  step : S → List B → Option (S × Nat × List B)
  front : ∀ {state : S} {inbox : List B} {state' : S} {taken : Nat} {sent : List B},
    step state inbox = some (state', taken, sent) →
      taken ≤ inbox.length ∧ ∀ more, step state (inbox ++ more) = some (state', taken, sent)

/-- Both parties and the two queues between them. -/
structure Duplex (S : Type u) (T : Type v) (B : Type w) where
  left : S
  right : T
  toRight : List B
  toLeft : List B

namespace Duplex

variable {S : Type u} {T : Type v} {B : Type w} (first : Party S B) (second : Party T B)

/-- One party makes a step. -/
inductive Step : Duplex S T B → Duplex S T B → Prop where
  | left {state : Duplex S T B} {after : S} {taken : Nat} {sent : List B}
      (step : first.step state.left state.toLeft = some (after, taken, sent)) :
      Step state ⟨after, state.right, state.toRight ++ sent, state.toLeft.drop taken⟩
  | right {state : Duplex S T B} {after : T} {taken : Nat} {sent : List B}
      (step : second.step state.right state.toRight = some (after, taken, sent)) :
      Step state ⟨state.left, after, state.toRight.drop taken, state.toLeft ++ sent⟩

/-- Any number of steps, in any order. -/
abbrev Reaches : Duplex S T B → Duplex S T B → Prop := Relation.ReflTransGen (Step first second)

variable {first second}

/-- A step of the left party and one of the right party commute. -/
theorem left_right {state : Duplex S T B} {after : S} {taken : Nat} {sent : List B}
    {after' : T} {taken' : Nat} {sent' : List B}
    (step : first.step state.left state.toLeft = some (after, taken, sent))
    (step' : second.step state.right state.toRight = some (after', taken', sent')) :
    ∃ final, Step first second ⟨after, state.right, state.toRight ++ sent, state.toLeft.drop taken⟩ final ∧
      Step first second ⟨state.left, after', state.toRight.drop taken', state.toLeft ++ sent'⟩ final := by
  obtain ⟨few, later⟩ := first.front step
  obtain ⟨few', later'⟩ := second.front step'
  refine ⟨⟨after, after', state.toRight.drop taken' ++ sent, state.toLeft.drop taken ++ sent'⟩, ?_, ?_⟩
  · have moved : Step first second ⟨after, state.right, state.toRight ++ sent, state.toLeft.drop taken⟩
        ⟨after, after', (state.toRight ++ sent).drop taken', state.toLeft.drop taken ++ sent'⟩ :=
      .right (later' sent)
    rwa [List.drop_append_of_le_length few'] at moved
  · have moved : Step first second ⟨state.left, after', state.toRight.drop taken', state.toLeft ++ sent'⟩
        ⟨after, after', state.toRight.drop taken' ++ sent, (state.toLeft ++ sent').drop taken⟩ :=
      .left (later sent')
    rwa [List.drop_append_of_le_length few] at moved

theorem diamond (state next next' : Duplex S T B) (step : Step first second state next)
    (step' : Step first second state next') :
    ∃ final, Relation.ReflGen (Step first second) next final ∧
      Relation.ReflTransGen (Step first second) next' final := by
  cases step with
  | left step =>
      cases step' with
      | left step' =>
          rw [step] at step'
          cases step'
          exact ⟨_, .refl, .refl⟩
      | right step' =>
          obtain ⟨final, one, other⟩ := left_right step step'
          exact ⟨final, .single one, .single other⟩
  | right step =>
      cases step' with
      | left step' =>
          obtain ⟨final, one, other⟩ := left_right step' step
          exact ⟨final, .single other, .single one⟩
      | right step' =>
          rw [step] at step'
          cases step'
          exact ⟨_, .refl, .refl⟩

/-- If one order of the steps ends, no other order can miss its end. -/
theorem Reaches.of_final {state final : Duplex S T B} (ended : Reaches first second state final)
    (stuck : ∀ next, ¬ Step first second final next) {other : Duplex S T B}
    (reached : Reaches first second state other) : Reaches first second other final := by
  obtain ⟨joined, rest, fromFinal⟩ := Relation.church_rosser diamond reached ended
  rcases Relation.ReflTransGen.cases_head fromFinal with same | ⟨next, step, -⟩
  · exact same ▸ rest
  · exact absurd step (stuck next)

end Duplex

/-! ## Programs as parties -/

/-- Effects that may read the front of a queue and write to another. -/
structure QueueEffects (E : Type → Type) (σ : Type) (B : Type) where
  act : ∀ {β : Type}, E β → σ → List B → Option (β × σ × Nat × List B)
  front : ∀ {β : Type} {effect : E β} {state : σ} {inbox : List B} {result : β} {state' : σ}
    {taken : Nat} {sent : List B}, act effect state inbox = some (result, state', taken, sent) →
      taken ≤ inbox.length ∧ ∀ more, act effect state (inbox ++ more) = some (result, state', taken, sent)

namespace QueueEffects

variable {E : Type → Type} {σ B α : Type} (effects : QueueEffects E σ B)

/-- The step of a program: its next effect. -/
def step : Prog E α × σ → List B → Option ((Prog E α × σ) × Nat × List B)
  | (.op effect next, state), inbox =>
      (effects.act effect state inbox).map fun (result, state', taken, sent) =>
        ((next result, state'), taken, sent)
  | _, _ => none

def party : Party (Prog E α × σ) B where
  step := effects.step
  front := by
    rintro ⟨program, state⟩ inbox state' taken sent step
    cases program with
    | pure value => cases step
    | fail => cases step
    | op effect next =>
        obtain ⟨⟨result, middle, count, out⟩, acted, same⟩ := Option.map_eq_some_iff.mp step
        cases same
        obtain ⟨few, later⟩ := effects.front acted
        refine ⟨few, fun more => ?_⟩
        simp only [QueueEffects.step, later more, Option.map_some]

/-- The effects of a program that runs alone, on the two queues. -/
def meaning : Meaning E (σ × List B × List B) := fun _ effect (state, inbox, outbox) =>
  (effects.act effect state inbox).map fun (result, state', taken, sent) =>
    (result, state', inbox.drop taken, outbox ++ sent)

variable {effects}

theorem run_op {β : Type} {effect : E β} {next : β → Prog E α} {state state' : σ}
    {inbox outbox sent : List B} {result : β} {taken : Nat}
    (acted : effects.act effect state inbox = some (result, state', taken, sent)) :
    (Prog.op effect next).run effects.meaning (state, inbox, outbox) =
      (next result).run effects.meaning (state', inbox.drop taken, outbox ++ sent) := by
  simp only [Prog.run, meaning, acted, Option.map_some, Option.bind_some]

end QueueEffects

namespace Duplex

variable {E F : Type → Type} {σ τ B α β : Type} {effects : QueueEffects E σ B}
  {others : QueueEffects F τ B}

/-- The left program performs an effect. -/
theorem Reaches.left_op {γ : Type} {effect : E γ} {next : γ → Prog E α} {state state' : σ}
    {right : Prog F β × τ} {toRight toLeft sent : List B} {result : γ} {taken : Nat}
    {final : Duplex (Prog E α × σ) (Prog F β × τ) B}
    (acted : effects.act effect state toLeft = some (result, state', taken, sent))
    (rest : Reaches effects.party others.party
      ⟨(next result, state'), right, toRight ++ sent, toLeft.drop taken⟩ final) :
    Reaches effects.party others.party ⟨(.op effect next, state), right, toRight, toLeft⟩ final := by
  refine .head (.left ?_) rest
  simp only [QueueEffects.party, QueueEffects.step, acted, Option.map_some]

/-- The right program runs a part of its text. -/
theorem Reaches.right_run {γ : Type} {program : Prog F γ} {next : γ → Prog F β} {state state' : τ}
    {left : Prog E α × σ} {toRight toRight' toLeft toLeft' : List B} {value : γ}
    {final : Duplex (Prog E α × σ) (Prog F β × τ) B}
    (ran : program.run others.meaning (state, toRight, toLeft) = some (value, state', toRight', toLeft'))
    (rest : Reaches effects.party others.party ⟨left, (next value, state'), toRight', toLeft'⟩ final) :
    Reaches effects.party others.party ⟨left, (program.bind next, state), toRight, toLeft⟩ final := by
  induction program generalizing state toRight toLeft with
  | pure inner =>
      cases ran
      exact rest
  | fail => cases ran
  | op effect inner ih =>
      obtain ⟨⟨result, middle⟩, step, later⟩ := Option.bind_eq_some_iff.mp ran
      obtain ⟨⟨answer, after, taken, sent⟩, acted, same⟩ := Option.map_eq_some_iff.mp step
      cases same
      refine .head (.right ?_) (ih _ later)
      simp only [QueueEffects.party, QueueEffects.step, Prog.bind, acted, Option.map_some]

end Duplex

/-! ## Effects beside the queues -/

namespace QueueEffects

variable {L E : Type → Type} {ρ σ B : Type}

/-- Effects on a state of their own, beside those on the queues. -/
def beside (own : Meaning L ρ) (effects : QueueEffects E σ B) : QueueEffects (SumOp L E) (ρ × σ) B where
  act {β} effect state inbox :=
    match β, effect with
    | _, .left effect => (own _ effect state.1).map fun (result, after) => (result, (after, state.2), 0, [])
    | _, .right effect => (effects.act effect state.2 inbox).map fun (result, after, taken, sent) =>
        (result, (state.1, after), taken, sent)
  front := by
    intro β effect state inbox result state' taken sent acted
    cases effect with
    | left effect =>
        obtain ⟨⟨answer, after⟩, stepped, same⟩ := Option.map_eq_some_iff.mp acted
        cases same
        refine ⟨Nat.zero_le _, fun more => ?_⟩
        simp only [stepped, Option.map_some]
    | right effect =>
        obtain ⟨⟨answer, after, count, out⟩, stepped, same⟩ := Option.map_eq_some_iff.mp acted
        cases same
        obtain ⟨few, later⟩ := effects.front stepped
        refine ⟨few, fun more => ?_⟩
        simp only [later more, Option.map_some]

end QueueEffects

namespace Duplex

variable {L E F : Type → Type} {ρ σ τ B α β γ : Type} {own : Meaning L ρ} {effects : QueueEffects E σ B}
  {others : QueueEffects F τ B}

/-- A state of the queues, inside a larger program that has effects of its own. -/
def inside (next : γ → Prog (SumOp L E) α) (owned : ρ) (state : Duplex (Prog E γ × σ) (Prog F β × τ) B) :
    Duplex (Prog (SumOp L E) α × ρ × σ) (Prog F β × τ) B :=
  ⟨((Prog.onRight state.left.1).bind next, (owned, state.left.2)), state.right, state.toRight, state.toLeft⟩

theorem Step.inside {state after : Duplex (Prog E γ × σ) (Prog F β × τ) B} (next : γ → Prog (SumOp L E) α) (owned : ρ)
    (step : Step effects.party others.party state after) :
    Step (QueueEffects.beside own effects).party others.party (state.inside next owned) (after.inside next owned) := by
  cases step with
  | left step =>
      obtain ⟨⟨program, own'⟩, right, toRight, toLeft⟩ := state
      cases program with
      | pure value => cases step
      | fail => cases step
      | op effect rest =>
          obtain ⟨⟨result, middle, count, out⟩, acted, same⟩ := Option.map_eq_some_iff.mp step
          cases same
          refine .left ?_
          simp only [QueueEffects.party, QueueEffects.step, Prog.bind, Prog.onRight, Prog.interp, Prog.perform,
            QueueEffects.beside, acted, Option.map_some, Duplex.inside]
  | right step => exact .right step

/-- What two parties do goes on inside a larger program. -/
theorem Reaches.inside {state after : Duplex (Prog E γ × σ) (Prog F β × τ) B} (next : γ → Prog (SumOp L E) α) (owned : ρ)
    (reached : Reaches effects.party others.party state after) :
    Reaches (QueueEffects.beside own effects).party others.party (state.inside next owned) (after.inside next owned) := by
  induction reached with
  | refl => exact .refl
  | tail _ step ih => exact ih.tail (step.inside next owned)

end Duplex

end MyJQL.Library
