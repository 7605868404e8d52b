import MyJQL.Library.Signature

/-!
# Contracts of effects

A contract says of every effect whether a program may ask for it, and which answers the
program may expect. A program that meets its contract whatever it is told within it needs no
state to say so. Where a logic gives the program the answers that it expects, the contract and
the invariant behind it hold in front of every effect.
-/

namespace MyJQL.Library

variable {E F : Type → Type} {σ τ α β : Type}

/-- What a program may ask for, and what it may be told. -/
structure Contract (E : Type → Type) where
  asked : ∀ β : Type, E β → Prop
  expected : ∀ β : Type, E β → β → Prop

namespace Contract

/-- A contract for each part of a signature. -/
def sum (first : Contract E) (second : Contract F) : Contract (SumOp E F) where
  asked
    | _, .left effect => first.asked _ effect
    | _, .right effect => second.asked _ effect
  expected
    | _, .left effect, result => first.expected _ effect result
    | _, .right effect, result => second.expected _ effect result

/-- Nothing is forbidden and nothing is promised. -/
def any : Contract E := ⟨fun _ _ => True, fun _ _ _ => True⟩

/-- These effects are allowed, and nothing is promised. -/
def only (allowed : ∀ β : Type, E β → Prop) : Contract E := ⟨allowed, fun _ _ _ => True⟩

end Contract

namespace Prog

variable {contract : Contract E} {program : Prog E α} {next : α → Prog E β} {kind kind' : α → Prop} {last : β → Prop}

/-- Every effect is one that may be asked for, and the result is of this kind. -/
def Meets (contract : Contract E) : Prog E α → (α → Prop) → Prop
  | .pure value, kind => kind value
  | .fail, _ => True
  | .op effect next, kind =>
      contract.asked _ effect ∧ ∀ result, contract.expected _ effect result → (next result).Meets contract kind

theorem Meets.mono (meets : program.Meets contract kind) (imp : ∀ value, kind value → kind' value) :
    program.Meets contract kind' := by
  induction program with
  | pure value => exact imp value meets
  | fail => trivial
  | op effect next ih => exact ⟨meets.1, fun result told => ih result (meets.2 result told)⟩

theorem Meets.bind (meets : program.Meets contract kind)
    (rest : ∀ value, kind value → (next value).Meets contract last) : (program >>= next).Meets contract last := by
  induction program with
  | pure value => exact rest value meets
  | fail => trivial
  | op effect inner ih => exact ⟨meets.1, fun result told => ih result (meets.2 result told)⟩

theorem meets_perform {effect : E α} {kind : α → Prop} (asked : contract.asked _ effect)
    (told : ∀ result, contract.expected _ effect result → kind result) : (perform effect).Meets contract kind :=
  ⟨asked, told⟩

theorem meets_ofOption {value : Option α} (some : ∀ result, value = .some result → kind result) :
    (ofOption value : Prog E α).Meets contract kind := by
  cases value with
  | none => trivial
  | some result => exact some result rfl

theorem meets_option {value : Option α} : (ofOption value : Prog E α).Meets contract fun _ => True :=
  meets_ofOption fun _ _ => trivial

theorem meets_any (program : Prog E α) : program.Meets .any fun _ => True := by
  induction program with
  | pure value => trivial
  | fail => trivial
  | op effect next ih => exact ⟨trivial, fun result _ => ih result⟩

/-- What a program may ask for is implemented by programs that meet the contract. -/
theorem Meets.interp {target : Contract F} {handler : ∀ β : Type, E β → Prog F β}
    (handled : ∀ β effect, contract.asked β effect → (handler β effect).Meets target (contract.expected β effect))
    (meets : program.Meets contract kind) : (program.interp handler).Meets target kind := by
  induction program with
  | pure value => exact meets
  | fail => trivial
  | op effect next ih => exact (handled _ effect meets.1).bind fun result told => ih result (meets.2 result told)

theorem Meets.onLeft {other : Contract F} (meets : program.Meets contract kind) :
    (onLeft program : Prog (SumOp E F) α).Meets (contract.sum other) kind := by
  induction program with
  | pure value => exact meets
  | fail => trivial
  | op effect next ih => exact ⟨meets.1, fun result told => ih result (meets.2 result told)⟩

theorem Meets.onRight {other : Contract F} (meets : program.Meets contract kind) :
    (onRight program : Prog (SumOp F E) α).Meets (other.sum contract) kind := by
  induction program with
  | pure value => exact meets
  | fail => trivial
  | op effect next ih => exact ⟨meets.1, fun result told => ih result (meets.2 result told)⟩

end Prog

namespace Logic

/-- A logic that asks for a guard besides. -/
def guarded (logic : Logic E σ) (guard : ∀ β : Type, E β → σ → Prop) : Logic E σ where
  rule _ effect post state := guard _ effect state ∧ logic.rule _ effect post state
  mono imp holds := ⟨holds.1, logic.mono imp holds.2⟩

/-- What holds with a guard holds without it. -/
theorem wp_of_guarded {logic : Logic E σ} {guard : ∀ β : Type, E β → σ → Prop} {program : Prog E α} {post : α → σ → Prop}
    {state : σ} (holds : program.wp (logic.guarded guard) post state) : program.wp logic post state := by
  induction program generalizing state with
  | pure value => exact holds
  | fail => exact holds
  | op effect next ih => exact logic.mono (fun result after inner => ih result inner) holds.2

/-- The guard of the abstract state is one of the executable state. -/
theorem Simulates.guarded {first : Logic E σ} {meaning : Meaning E τ} {related : σ → τ → Prop}
    {guard : ∀ β : Type, E β → σ → Prop}
    (simulates : Simulates first (ofMeaning meaning fun _ _ _ => True) related) :
    Simulates (first.guarded guard)
      (ofMeaning meaning fun β effect state => ∃ left, related left state ∧ guard β effect left) related := by
  intro β effect post left right start holds
  obtain ⟨-, ran⟩ := simulates effect post left right start holds.2
  exact ⟨⟨left, start, holds.1⟩, ran⟩

/--
While an invariant holds, the logic gives the answers that the contract promises, and the
contract and the invariant make the guard hold.
-/
def Honours (logic : Logic E σ) (contract : Contract E) (inv : σ → Prop) (guard : ∀ β : Type, E β → σ → Prop) : Prop :=
  ∀ {β : Type} (effect : E β) (post : β → σ → Prop) (state : σ), inv state → contract.asked β effect →
    logic.rule β effect post state → guard β effect state ∧
      logic.rule β effect (fun result after => post result after ∧ inv after ∧ contract.expected β effect result) state

/-- Each part honours its own contract. -/
theorem Honours.sum {first : Logic E σ} {second : Logic F τ} {contract : Contract E} {contract' : Contract F}
    {inv : σ → Prop} {inv' : τ → Prop} {guard : ∀ β : Type, E β → σ → Prop} {guard' : ∀ β : Type, F β → τ → Prop}
    (left : first.Honours contract inv guard) (right : second.Honours contract' inv' guard') :
    (first.sum second).Honours (contract.sum contract') (fun state => inv state.1 ∧ inv' state.2)
      (SumOp.Guard guard guard') := by
  intro β effect post state both asked holds
  cases effect with
  | left effect =>
      obtain ⟨guarded, after⟩ := left effect _ state.1 both.1 asked holds
      exact ⟨guarded, first.mono (fun result final kept => ⟨kept.1, ⟨kept.2.1, both.2⟩, kept.2.2⟩) after⟩
  | right effect =>
      obtain ⟨guarded, after⟩ := right effect _ state.2 both.2 asked holds
      exact ⟨guarded, second.mono (fun result final kept => ⟨kept.1, ⟨both.1, kept.2.1⟩, kept.2.2⟩) after⟩

/-- What alone is allowed is all that is asked for. -/
theorem Honours.only (logic : Logic E σ) (allowed : ∀ β : Type, E β → Prop) :
    logic.Honours (.only allowed) (fun _ => True) fun β effect _ => allowed β effect := by
  intro β effect post state _ asked holds
  exact ⟨asked, logic.mono (fun result after ended => ⟨ended, trivial, trivial⟩) holds⟩

/-- A logic without promises honours the contract without promises. -/
theorem Honours.any (logic : Logic E σ) : logic.Honours .any (fun _ => True) fun _ _ _ => True := by
  intro β effect post state _ _ holds
  exact ⟨trivial, logic.mono (fun result after ended => ⟨ended, trivial, trivial⟩) holds⟩

end Logic

/-- A correct program that meets a contract keeps the guard in front of every effect. -/
theorem Prog.Meets.wp_guarded {logic : Logic E σ} {contract : Contract E} {inv : σ → Prop}
    {guard : ∀ β : Type, E β → σ → Prop} (honours : logic.Honours contract inv guard) {program : Prog E α}
    {kind : α → Prop} (meets : program.Meets contract kind) {post : α → σ → Prop} {state : σ} (start : inv state)
    (holds : program.wp logic post state) :
    program.wp (logic.guarded guard) (fun result after => post result after ∧ inv after) state := by
  induction program generalizing state with
  | pure value => exact ⟨holds, start⟩
  | fail => exact holds
  | op effect next ih =>
      obtain ⟨guarded, kept⟩ := honours effect _ state start meets.1 holds
      refine ⟨guarded, logic.mono ?_ kept⟩
      exact fun result after told => ih result (meets.2 result told.2.2) told.2.1 told.1

end MyJQL.Library
