import Mathlib

/-!
# Programs over a signature of effects

A program is a finite tree of effects and continuations, so one program text
can be given several meanings: a page map, the same map with pins, a cache of
slots. `fail` is undefined behaviour: no meaning assigns it a result.

`Logic` is a predicate-transformer reading of the effects. A proof of `wp`
in a logic built from an executable meaning is a proof of total correctness
together with a guard on every effect performed on the way.
-/

namespace MyJQL.Library

/-- Programs that perform effects from `E` and return an `α`. -/
inductive Prog (E : Type → Type) (α : Type) : Type 1 where
  | pure (value : α)
  | fail
  | op {β : Type} (effect : E β) (next : β → Prog E α)

namespace Prog

variable {E F : Type → Type} {α β : Type}

def bind : Prog E α → (α → Prog E β) → Prog E β
  | .pure value, next => next value
  | .fail, _ => .fail
  | .op effect inner, next => .op effect fun result => (inner result).bind next

theorem bind_pure (program : Prog E α) : program.bind .pure = program := by
  induction program with
  | pure value => rfl
  | fail => rfl
  | op effect inner ih =>
      simp only [bind]
      congr 1
      funext result
      exact ih result

theorem bind_assoc {γ : Type} (program : Prog E α) (next : α → Prog E β) (last : β → Prog E γ) :
    (program.bind next).bind last = program.bind fun value => (next value).bind last := by
  induction program with
  | pure value => rfl
  | fail => rfl
  | op effect inner ih =>
      simp only [bind]
      congr 1
      funext result
      exact ih result

instance : Monad (Prog E) where
  pure := .pure
  bind := bind

/-- One effect, returning its answer. -/
def perform (effect : E α) : Prog E α := .op effect .pure

/-- A fallible computation; `none` is undefined behaviour. -/
def ofOption : Option α → Prog E α
  | some value => .pure value
  | none => .fail

/-- Replace every effect by a program over another signature. -/
def interp (handler : ∀ β : Type, E β → Prog F β) : Prog E α → Prog F α
  | .pure value => .pure value
  | .fail => .fail
  | .op effect next => (handler _ effect).bind fun result => (next result).interp handler

end Prog

/-- An executable meaning of the effects on states `σ`. -/
abbrev Meaning (E : Type → Type) (σ : Type) : Type 1 :=
  ∀ β : Type, E β → σ → Option (β × σ)

namespace Prog

variable {E F : Type → Type} {σ α β : Type}

def run (meaning : Meaning E σ) : Prog E α → σ → Option (α × σ)
  | .pure value, state => some (value, state)
  | .fail, _ => none
  | .op effect next, state =>
      (meaning _ effect state).bind fun result => (next result.1).run meaning result.2

@[simp]
theorem run_pure (meaning : Meaning E σ) (value : α) (state : σ) :
    (Pure.pure value : Prog E α).run meaning state = some (value, state) := rfl

@[simp]
theorem run_fail (meaning : Meaning E σ) (state : σ) :
    (Prog.fail : Prog E α).run meaning state = none := rfl

@[simp]
theorem run_perform (meaning : Meaning E σ) (effect : E α) (state : σ) :
    (perform effect).run meaning state = meaning _ effect state := by
  cases step : meaning _ effect state with
  | none => simp only [perform, run, step, Option.bind_none]
  | some result => simp only [perform, run, step, Option.bind_some]

theorem run_bind_eq (meaning : Meaning E σ) (program : Prog E α) (next : α → Prog E β) (state : σ) :
    (program.bind next).run meaning state =
      (program.run meaning state).bind fun result => (next result.1).run meaning result.2 := by
  induction program generalizing state with
  | pure value => rfl
  | fail => rfl
  | op effect inner ih =>
      simp only [bind, run, Option.bind_assoc]
      congr 1
      funext result
      exact ih result.1 result.2

@[simp]
theorem run_bind (meaning : Meaning E σ) (program : Prog E α) (next : α → Prog E β) (state : σ) :
    (program >>= next).run meaning state =
      (program.run meaning state).bind fun result => (next result.1).run meaning result.2 :=
  run_bind_eq meaning program next state

/-- Every effect the run performs satisfies `guard` in the state it meets. -/
def Always (meaning : Meaning E σ) (guard : ∀ β : Type, E β → σ → Prop) :
    Prog E α → σ → Prop
  | .pure _, _ => True
  | .fail, _ => True
  | .op effect next, state =>
      guard _ effect state ∧
        ∀ result, meaning _ effect state = some result →
          (next result.1).Always meaning guard result.2

theorem Always.imp {meaning : Meaning E σ} {guard guard' : ∀ β : Type, E β → σ → Prop} {program : Prog E α} {state : σ}
    (weaker : ∀ β effect before, guard β effect before → guard' β effect before)
    (always : program.Always meaning guard state) : program.Always meaning guard' state := by
  induction program generalizing state with
  | pure value => trivial
  | fail => trivial
  | op effect next ih =>
      obtain ⟨here, rest⟩ := always
      exact ⟨weaker _ effect state here, fun result step => ih result.1 (rest result step)⟩

theorem Always.bind {meaning : Meaning E σ} {guard : ∀ β : Type, E β → σ → Prop} {program : Prog E α} {next : α → Prog E β}
    {state : σ} (first : program.Always meaning guard state)
    (second : ∀ value after, program.run meaning state = some (value, after) → (next value).Always meaning guard after) :
    (program >>= next).Always meaning guard state := by
  induction program generalizing state with
  | pure value => exact second value state rfl
  | fail => trivial
  | op effect inner ih =>
      obtain ⟨here, rest⟩ := first
      refine ⟨here, fun result step => ih result.1 (rest result step) fun value after ran => second value after ?_⟩
      rw [run, step]
      exact ran

end Prog

/-- A predicate-transformer reading of the effects, monotone in the postcondition. -/
structure Logic (E : Type → Type) (σ : Type) where
  rule : ∀ β : Type, E β → (β → σ → Prop) → σ → Prop
  mono : ∀ {β : Type} {effect : E β} {first second : β → σ → Prop} {state : σ},
    (∀ result after, first result after → second result after) →
      rule β effect first state → rule β effect second state

namespace Prog

variable {E F : Type → Type} {σ τ α β : Type}

/-- Total weakest precondition. -/
def wp (logic : Logic E σ) : Prog E α → (α → σ → Prop) → σ → Prop
  | .pure value, post, state => post value state
  | .fail, _, _ => False
  | .op effect next, post, state =>
      logic.rule _ effect (fun result after => (next result).wp logic post after) state

@[simp]
theorem wp_pure (logic : Logic E σ) (value : α) (post : α → σ → Prop) (state : σ) :
    (Pure.pure value : Prog E α).wp logic post state ↔ post value state := Iff.rfl

@[simp]
theorem wp_ret (logic : Logic E σ) (value : α) (post : α → σ → Prop) (state : σ) :
    (Prog.pure value : Prog E α).wp logic post state ↔ post value state := Iff.rfl

@[simp]
theorem wp_fail (logic : Logic E σ) (post : α → σ → Prop) (state : σ) :
    (Prog.fail : Prog E α).wp logic post state ↔ False := Iff.rfl

@[simp]
theorem wp_perform (logic : Logic E σ) (effect : E α) (post : α → σ → Prop) (state : σ) :
    (perform effect).wp logic post state ↔ logic.rule _ effect post state := Iff.rfl

@[simp]
theorem wp_ofOption_some (logic : Logic E σ) (value : α) (post : α → σ → Prop) (state : σ) :
    (ofOption (some value) : Prog E α).wp logic post state ↔ post value state := Iff.rfl

theorem wp_mono {logic : Logic E σ} {program : Prog E α} {first second : α → σ → Prop}
    (imp : ∀ result after, first result after → second result after) {state : σ}
    (holds : program.wp logic first state) : program.wp logic second state := by
  induction program generalizing state with
  | pure value => exact imp _ _ holds
  | fail => exact holds
  | op effect next ih => exact logic.mono (fun result after inner => ih result inner) holds

theorem wp_bind_eq (logic : Logic E σ) (program : Prog E α) (next : α → Prog E β)
    (post : β → σ → Prop) (state : σ) :
    (program.bind next).wp logic post state ↔
      program.wp logic (fun value after => (next value).wp logic post after) state := by
  induction program generalizing state with
  | pure value => exact Iff.rfl
  | fail => exact Iff.rfl
  | op effect inner ih =>
      constructor
      · exact logic.mono fun result after => (ih result after).mp
      · exact logic.mono fun result after => (ih result after).mpr

@[simp]
theorem wp_bind (logic : Logic E σ) (program : Prog E α) (next : α → Prog E β)
    (post : β → σ → Prop) (state : σ) :
    (program >>= next).wp logic post state ↔
      program.wp logic (fun value after => (next value).wp logic post after) state :=
  wp_bind_eq logic program next post state

/-! ### Partial correctness -/

/-- The weakest liberal precondition: undefined behaviour satisfies every postcondition. -/
def wlp (logic : Logic E σ) : Prog E α → (α → σ → Prop) → σ → Prop
  | .pure value, post, state => post value state
  | .fail, _, _ => True
  | .op effect next, post, state =>
      logic.rule _ effect (fun result after => (next result).wlp logic post after) state

theorem wlp_of_wp {logic : Logic E σ} {program : Prog E α} {post : α → σ → Prop} {state : σ}
    (holds : program.wp logic post state) : program.wlp logic post state := by
  induction program generalizing state with
  | pure value => exact holds
  | fail => trivial
  | op effect next ih => exact logic.mono (fun result after inner => ih result inner) holds

theorem wlp_mono {logic : Logic E σ} {program : Prog E α} {first second : α → σ → Prop}
    (imp : ∀ result after, first result after → second result after) {state : σ}
    (holds : program.wlp logic first state) : program.wlp logic second state := by
  induction program generalizing state with
  | pure value => exact imp _ _ holds
  | fail => trivial
  | op effect next ih => exact logic.mono (fun result after inner => ih result inner) holds

theorem wlp_bind_eq (logic : Logic E σ) (program : Prog E α) (next : α → Prog E β)
    (post : β → σ → Prop) (state : σ) :
    (program.bind next).wlp logic post state ↔
      program.wlp logic (fun value after => (next value).wlp logic post after) state := by
  induction program generalizing state with
  | pure value => exact Iff.rfl
  | fail => exact Iff.rfl
  | op effect inner ih =>
      constructor
      · exact logic.mono fun result after => (ih result after).mp
      · exact logic.mono fun result after => (ih result after).mpr

@[simp]
theorem wlp_bind (logic : Logic E σ) (program : Prog E α) (next : α → Prog E β)
    (post : β → σ → Prop) (state : σ) :
    (program >>= next).wlp logic post state ↔
      program.wlp logic (fun value after => (next value).wlp logic post after) state :=
  wlp_bind_eq logic program next post state

theorem wlp_ofOption {logic : Logic E σ} {value : Option α} {post : α → σ → Prop} {state : σ}
    (ended : ∀ result, value = some result → post result state) : (ofOption value).wlp logic post state := by
  cases value with
  | none => trivial
  | some result => exact ended result rfl

/-- A first part that is correct, and a rest that is partially so. -/
theorem wlp_seq {logic : Logic E σ} {program : Prog E α} {next : α → Prog E β} {post : β → σ → Prop} {state : σ}
    (holds : program.wp logic (fun value after => (next value).wlp logic post after) state) :
    (program >>= next).wlp logic post state :=
  (wlp_bind logic program next post state).mpr (wlp_of_wp holds)

end Prog

namespace Logic

variable {E F : Type → Type} {σ τ : Type}

/-- The logic of an executable meaning, with a guard on every effect. -/
def ofMeaning (meaning : Meaning E σ) (guard : ∀ β : Type, E β → σ → Prop) : Logic E σ where
  rule _ effect post state :=
    guard _ effect state ∧ ∃ result after, meaning _ effect state = some (result, after) ∧
      post result after
  mono imp holds := by
    obtain ⟨guarded, result, after, step, post⟩ := holds
    exact ⟨guarded, result, after, step, imp _ _ post⟩

/-- Read each effect of `E` through the program that implements it. -/
def pull (logic : Logic F σ) (handler : ∀ β : Type, E β → Prog F β) : Logic E σ where
  rule _ effect post state := (handler _ effect).wp logic post state
  mono imp holds := Prog.wp_mono imp holds

/-- `second` simulates `first` through a relation between their states. -/
def Simulates (first : Logic E σ) (second : Logic E τ) (related : σ → τ → Prop) : Prop :=
  ∀ {β : Type} (effect : E β) (post : β → σ → Prop) (left : σ) (right : τ),
    related left right → first.rule β effect post left →
      second.rule β effect (fun result right' => ∃ left', related left' right' ∧ post result left') right

end Logic

namespace Prog

variable {E F : Type → Type} {σ τ α : Type}

theorem wp_interp (logic : Logic F σ) (handler : ∀ β : Type, E β → Prog F β)
    (program : Prog E α) (post : α → σ → Prop) (state : σ) :
    (program.interp handler).wp logic post state ↔
      program.wp (logic.pull handler) post state := by
  induction program generalizing state with
  | pure value => exact Iff.rfl
  | fail => exact Iff.rfl
  | op effect next ih =>
      rw [interp, wp_bind_eq]
      constructor
      · exact wp_mono fun result after => (ih result after).mp
      · exact wp_mono fun result after => (ih result after).mpr

/-- A simulation between logics carries weakest preconditions across. -/
theorem wp_simulates {first : Logic E σ} {second : Logic E τ} {related : σ → τ → Prop}
    (simulates : Logic.Simulates first second related) {program : Prog E α}
    {post : α → σ → Prop} {left : σ} {right : τ} (start : related left right)
    (holds : program.wp first post left) :
    program.wp second (fun result right' => ∃ left', related left' right' ∧ post result left')
      right := by
  induction program generalizing left right with
  | pure value => exact ⟨left, start, holds⟩
  | fail => exact holds
  | op effect next ih =>
      refine second.mono ?_ (simulates effect _ left right start holds)
      rintro result after ⟨left', related', inner⟩
      exact ih result related' inner

theorem wlp_simulates {first : Logic E σ} {second : Logic E τ} {related : σ → τ → Prop}
    (simulates : Logic.Simulates first second related) {program : Prog E α}
    {post : α → σ → Prop} {left : σ} {right : τ} (start : related left right)
    (holds : program.wlp first post left) :
    program.wlp second (fun result right' => ∃ left', related left' right' ∧ post result left')
      right := by
  induction program generalizing left right with
  | pure value => exact ⟨left, start, holds⟩
  | fail => trivial
  | op effect next ih =>
      refine second.mono ?_ (simulates effect _ left right start holds)
      rintro result after ⟨left', related', inner⟩
      exact ih result related' inner

/-- What a run returns, when it returns. -/
theorem of_run_of_wlp {meaning : Meaning E σ} {guard : ∀ β : Type, E β → σ → Prop} {program : Prog E α}
    {post : α → σ → Prop} {state after : σ} {value : α} (ran : program.run meaning state = some (value, after))
    (holds : program.wlp (Logic.ofMeaning meaning guard) post state) : post value after := by
  induction program generalizing state with
  | pure inner =>
      cases ran
      exact holds
  | fail => cases ran
  | op effect next ih =>
      obtain ⟨-, result, middle, step, inner⟩ := holds
      rw [run, step, Option.bind_some] at ran
      exact ih result ran inner

/-- Total correctness and the guard along the run, from a weakest precondition. -/
theorem run_of_wp {meaning : Meaning E σ} {guard : ∀ β : Type, E β → σ → Prop}
    {program : Prog E α} {post : α → σ → Prop} {state : σ}
    (holds : program.wp (Logic.ofMeaning meaning guard) post state) :
    (∃ value after, program.run meaning state = some (value, after) ∧ post value after) ∧
      program.Always meaning guard state := by
  induction program generalizing state with
  | pure value => exact ⟨⟨value, state, rfl, holds⟩, trivial⟩
  | fail => exact holds.elim
  | op effect next ih =>
      obtain ⟨guarded, result, after, step, inner⟩ := holds
      obtain ⟨⟨value, final, ran, ended⟩, always⟩ := ih result inner
      refine ⟨⟨value, final, ?_, ended⟩, guarded, ?_⟩
      · simp only [run, step, Option.bind_some, ran]
      · intro other reached
        rw [step] at reached
        cases reached
        exact always

/-- The converse: a run that succeeds and keeps the guard meets its weakest precondition. -/
theorem wp_of_run {meaning : Meaning E σ} {guard : ∀ β : Type, E β → σ → Prop}
    {program : Prog E α} {state after : σ} {value : α}
    (ran : program.run meaning state = some (value, after))
    (always : program.Always meaning guard state) {post : α → σ → Prop}
    (ended : post value after) :
    program.wp (Logic.ofMeaning meaning guard) post state := by
  induction program generalizing state with
  | pure inner =>
      cases ran
      exact ended
  | fail => cases ran
  | op effect next ih =>
      obtain ⟨⟨result, middle⟩, step, rest⟩ := Option.bind_eq_some_iff.mp ran
      exact ⟨always.1, result, middle, step, ih result rest (always.2 _ step)⟩

end Prog

/-! ### What a guarded run keeps -/

namespace Logic

variable {E : Type → Type} {σ : Type}

/-- Whatever a step does where the guard holds in front of it. -/
def relying (meaning : Meaning E σ) (guard : ∀ β : Type, E β → σ → Prop) : Logic E σ where
  rule _ effect post state :=
    guard _ effect state → ∀ result after, meaning _ effect state = some (result, after) → post result after
  mono imp holds guarded result after step := imp result after (holds guarded result after step)

end Logic

namespace Prog

variable {E : Type → Type} {σ α β : Type} {meaning : Meaning E σ} {guard : ∀ β : Type, E β → σ → Prop} {inv : σ → Prop}
  {program : Prog E α} {next : α → Prog E β}

/-- What a run returns, when the guard holds in front of its effects. -/
theorem of_run_of_always {post : α → σ → Prop} {state after : σ} {value : α}
    (ran : program.run meaning state = some (value, after)) (always : program.Always meaning guard state)
    (holds : program.wlp (Logic.relying meaning guard) post state) : post value after := by
  induction program generalizing state with
  | pure inner =>
      cases ran
      exact holds
  | fail => cases ran
  | op effect inner ih =>
      obtain ⟨⟨result, middle⟩, step, rest⟩ := Option.bind_eq_some_iff.mp ran
      exact ih result rest (always.2 _ step) (holds always.1 result middle step)

/-- A program keeps an invariant while the guard holds in front of its effects. -/
def Keeps (meaning : Meaning E σ) (guard : ∀ β : Type, E β → σ → Prop) (inv : σ → Prop) (program : Prog E α) : Prop :=
  ∀ state, inv state → program.wlp (Logic.relying meaning guard) (fun _ after => inv after) state

theorem keeps_pure (value : α) : (Pure.pure value : Prog E α).Keeps meaning guard inv := fun _ kept => kept

theorem keeps_fail : (Prog.fail : Prog E α).Keeps meaning guard inv := fun _ _ => trivial

theorem keeps_ofOption (value : Option α) : (ofOption value : Prog E α).Keeps meaning guard inv := by
  cases value with
  | none => exact keeps_fail
  | some result => exact keeps_pure result

theorem Keeps.bind (first : program.Keeps meaning guard inv) (rest : ∀ value, (next value).Keeps meaning guard inv) :
    (program >>= next).Keeps meaning guard inv := by
  intro state kept
  rw [wlp_bind]
  exact wlp_mono (fun value after kept' => rest value after kept') (first state kept)

end Prog

end MyJQL.Library
