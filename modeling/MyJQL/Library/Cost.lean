import MyJQL.Library.Signature

/-!
# The cost of programs

Every effect has a weight, and a run costs the weights of the effects it performs. A bound
that holds along every path of a program, whatever it is told, bounds every run.

A loop whose rounds are counted down is a family of programs, each of which goes on where the
one before it gives up. A run of a program that does not give up is a run of every program
above it, at the same cost, so a bound for few rounds is one for any number of them.

Resources below may run out: a meaning affords another when every guarded effect can be paid
for out of what is left. What a run costs is then what it takes to do it below.
-/

namespace MyJQL.Library

variable {E F : Type → Type} {σ α β : Type}

namespace Prog

/-- What a run costs. -/
def cost (weight : ∀ β : Type, E β → Nat) (meaning : Meaning E σ) : Prog E α → σ → Nat
  | .pure _, _ => 0
  | .fail, _ => 0
  | .op effect next, state => weight _ effect +
      match meaning _ effect state with
      | some (result, after) => (next result).cost weight meaning after
      | none => 0

theorem cost_bind (weight : ∀ β : Type, E β → Nat) {meaning : Meaning E σ} {program : Prog E α} {next : α → Prog E β}
    {state after : σ} {value : α} (ran : program.run meaning state = some (value, after)) :
    (program >>= next).cost weight meaning state = program.cost weight meaning state + (next value).cost weight meaning after := by
  induction program generalizing state with
  | pure result =>
      cases ran
      exact (Nat.zero_add _).symm
  | fail => cases ran
  | op effect inner ih =>
      obtain ⟨⟨result, middle⟩, step, later⟩ := Option.bind_eq_some_iff.mp ran
      have rest : (op effect inner >>= next) = op effect fun result => inner result >>= next := rfl
      simp only [rest, cost, step, Nat.add_assoc]
      exact congrArg _ (ih result later)

/-- No path costs more than the bound. -/
def Within (weight : ∀ β : Type, E β → Nat) : Prog E α → Nat → Prop
  | .pure _, _ => True
  | .fail, _ => True
  | .op effect next, bound => ∃ rest, weight _ effect + rest ≤ bound ∧ ∀ result, (next result).Within weight rest

section Within

variable {weight : ∀ β : Type, E β → Nat} {program : Prog E α} {next : α → Prog E β} {bound bound' rest : Nat}

theorem Within.mono (within : program.Within weight bound) (le : bound ≤ bound') : program.Within weight bound' := by
  cases program with
  | pure value => trivial
  | fail => trivial
  | op effect inner =>
      obtain ⟨rest, few, later⟩ := within
      exact ⟨rest, few.trans le, later⟩

theorem Within.bind (first : program.Within weight bound) (second : ∀ value, (next value).Within weight rest) :
    (program >>= next).Within weight (bound + rest) := by
  induction program generalizing bound with
  | pure value => exact (second value).mono (Nat.le_add_left ..)
  | fail => trivial
  | op effect inner ih =>
      obtain ⟨left, few, later⟩ := first
      exact ⟨left + rest, by omega, fun result => ih result (later result)⟩

/-- What is free can stand in front. -/
theorem Within.after (free : program.Within weight 0) (later : ∀ value, (next value).Within weight rest) :
    (program >>= next).Within weight rest :=
  (free.bind later).mono (Nat.zero_add rest).le

/-- What is free can stand behind. -/
theorem Within.before (first : program.Within weight bound) (free : ∀ value, (next value).Within weight 0) :
    (program >>= next).Within weight bound :=
  first.bind free

theorem Within.paid (first : program.Within weight 1) (later : ∀ value, (next value).Within weight rest) :
    (program >>= next).Within weight (rest + 1) :=
  (first.bind later).mono (Nat.add_comm 1 rest).le

theorem within_perform {effect : E α} (few : weight _ effect ≤ bound) : (perform effect).Within weight bound :=
  ⟨0, few, fun _ => trivial⟩

theorem within_ofOption {value : Option α} : (ofOption value : Prog E α).Within weight bound := by
  cases value with
  | none => trivial
  | some result => trivial

theorem Within.cost_le {meaning : Meaning E σ} (within : program.Within weight bound) (state : σ) :
    program.cost weight meaning state ≤ bound := by
  induction program generalizing bound state with
  | pure value => exact Nat.zero_le _
  | fail => exact Nat.zero_le _
  | op effect inner ih =>
      obtain ⟨rest, few, later⟩ := within
      rw [Prog.cost]
      refine le_trans (Nat.add_le_add_left ?_ _) few
      cases meaning _ effect state with
      | none => exact Nat.zero_le _
      | some result => exact ih result.1 (later result.1) result.2

end Within

/-! ## Programs that give up later -/

/-- The second program is the first one, except that it may go on where the first gives up. -/
def Below : Prog E α → Prog E α → Prop
  | .pure value, above => above = .pure value
  | .fail, _ => True
  | .op effect next, above => ∃ next', above = .op effect next' ∧ ∀ result, (next result).Below (next' result)

section Below

variable {program above : Prog E α} {next next' : α → Prog E β}

theorem Below.refl (program : Prog E α) : program.Below program := by
  induction program with
  | pure value => rfl
  | fail => trivial
  | op effect inner ih => exact ⟨inner, rfl, ih⟩

theorem Below.bind (below : program.Below above) (rest : ∀ value, (next value).Below (next' value)) :
    (program >>= next).Below (above >>= next') := by
  induction program generalizing above with
  | pure value =>
      cases below
      exact rest value
  | fail => trivial
  | op effect inner ih =>
      obtain ⟨inner', rfl, later⟩ := below
      exact ⟨_, rfl, fun result => ih result (later result)⟩

/-- A run that does not give up is a run of the program above. -/
theorem Below.run {meaning : Meaning E σ} {state : σ} {result : α × σ} (below : program.Below above)
    (ran : program.run meaning state = some result) :
    above.run meaning state = some result := by
  induction program generalizing above state with
  | pure value =>
      cases below
      exact ran
  | fail => cases ran
  | op effect inner ih =>
      obtain ⟨inner', rfl, later⟩ := below
      obtain ⟨⟨answer, after⟩, step, rest⟩ := Option.bind_eq_some_iff.mp ran
      rw [Prog.run, step]
      exact ih answer (later answer) rest

/-- What holds of a program holds of the program above. -/
theorem Below.wp {logic : Logic E σ} {post : α → σ → Prop} {state : σ} (below : program.Below above)
    (holds : program.wp logic post state) : above.wp logic post state := by
  induction program generalizing above state with
  | pure value =>
      cases below
      exact holds
  | fail => exact absurd holds id
  | op effect inner ih =>
      obtain ⟨inner', rfl, later⟩ := below
      exact logic.mono (fun result after kept => ih result (later result) kept) holds

theorem Below.cost (weight : ∀ β : Type, E β → Nat) {meaning : Meaning E σ} {state : σ} {result : α × σ}
    (below : program.Below above) (ran : program.run meaning state = some result) :
    above.cost weight meaning state = program.cost weight meaning state := by
  induction program generalizing above state with
  | pure value =>
      cases below
      rfl
  | fail => cases ran
  | op effect inner ih =>
      obtain ⟨inner', rfl, later⟩ := below
      obtain ⟨⟨answer, after⟩, step, rest⟩ := Option.bind_eq_some_iff.mp ran
      simp only [Prog.cost, step]
      rw [ih answer (later answer) rest]

end Below

end Prog

/-! ## Runs on a budget -/

/-- The weights of the two parts. -/
def SumOp.weight (first : ∀ β : Type, E β → Nat) (second : ∀ β : Type, F β → Nat) : ∀ β : Type, SumOp E F β → Nat
  | _, .left effect => first _ effect
  | _, .right effect => second _ effect

section Budget

variable {σ' τ τ' : Type} {weight : ∀ β : Type, E β → Nat} {weight' : ∀ β : Type, F β → Nat} {upper : Meaning E τ}
  {guard : ∀ β : Type, E β → τ → Prop} {lower : Meaning E σ} {guard' : ∀ β : Type, E β → σ → Prop}
  {related : Nat → σ → τ → Prop}

/-- A guarded step of the upper meaning is one of the lower, for its weight. -/
def Affords (weight : ∀ β : Type, E β → Nat) (upper : Meaning E τ) (guard : ∀ β : Type, E β → τ → Prop)
    (lower : Meaning E σ) (guard' : ∀ β : Type, E β → σ → Prop) (related : Nat → σ → τ → Prop) : Prop :=
  ∀ (β : Type) (effect : E β) (spare : Nat) (below : σ) (above above' : τ) (result : β),
    related (weight β effect + spare) below above → guard β effect above → upper β effect above = some (result, above') →
      guard' β effect below ∧ ∃ below', lower β effect below = some (result, below') ∧ related spare below' above'

/-- A guarded run that can be paid for, whether the price is taken above or below. -/
theorem Affords.run (affords : Affords weight upper guard lower guard' related)
    (less : ∀ {few many below above}, few ≤ many → related many below above → related few below above)
    {program : Prog E α} {below : σ} {above above' : τ} {value : α} {budget spare : Nat} (paid : related (budget + spare) below above)
    (enough : program.cost weight upper above ≤ budget ∨ program.cost weight lower below ≤ budget)
    (always : program.Always upper guard above) (ran : program.run upper above = some (value, above')) :
    (∃ below', program.run lower below = some (value, below') ∧ related spare below' above') ∧
      program.Always lower guard' below := by
  induction program generalizing below above budget with
  | pure result =>
      cases ran
      exact ⟨⟨below, rfl, less (Nat.le_add_left ..) paid⟩, trivial⟩
  | fail => cases ran
  | op effect next ih =>
      obtain ⟨⟨result, middle⟩, step, later⟩ := Option.bind_eq_some_iff.mp ran
      obtain ⟨guarded, rest⟩ := always
      simp only [Prog.cost, step] at enough
      have covers : weight _ effect ≤ budget := by omega
      obtain ⟨budget, rfl⟩ := Nat.exists_eq_add_of_le covers
      rw [Nat.add_assoc] at paid
      obtain ⟨kept, below', stepped, left⟩ := affords _ effect _ below above middle result paid guarded step
      simp only [stepped, Nat.add_le_add_iff_left] at enough
      obtain ⟨⟨final, goes, ended⟩, always'⟩ := ih result left enough (rest _ step) later
      refine ⟨⟨final, ?_, ended⟩, kept, fun other told => ?_⟩
      · rw [Prog.run, stepped]
        exact goes
      · rw [stepped] at told
        cases told
        exact always'

/-- The run below costs what the run above costs. -/
theorem Affords.cost_eq (affords : Affords weight upper guard lower guard' related) {program : Prog E α} {below : σ}
    {above above' : τ} {value : α} {budget : Nat} (paid : related budget below above)
    (enough : program.cost weight upper above ≤ budget) (always : program.Always upper guard above)
    (ran : program.run upper above = some (value, above')) :
    program.cost weight lower below = program.cost weight upper above := by
  induction program generalizing below above budget with
  | pure result => rfl
  | fail => cases ran
  | op effect next ih =>
      obtain ⟨⟨result, middle⟩, step, later⟩ := Option.bind_eq_some_iff.mp ran
      obtain ⟨guarded, rest⟩ := always
      simp only [Prog.cost, step] at enough ⊢
      obtain ⟨budget, rfl⟩ := Nat.exists_eq_add_of_le (show weight _ effect ≤ budget by omega)
      obtain ⟨-, below', stepped, left⟩ := affords _ effect _ below above middle result paid guarded step
      simp only [stepped]
      rw [ih result left (by omega) (rest _ step) later]

/-- What costs nothing is always afforded. -/
theorem affords_same (meaning : Meaning E σ) (guard : ∀ β : Type, E β → σ → Prop) :
    Affords (fun _ _ => 0) meaning guard meaning guard fun _ below above => below = above := by
  rintro β effect spare state _ after result rfl guarded step
  exact ⟨guarded, after, step, rfl⟩

/-- Two parts draw on one budget. -/
theorem Affords.sum {upper' : Meaning F τ'} {guarded : ∀ β : Type, F β → τ' → Prop} {lower' : Meaning F σ'}
    {guarded' : ∀ β : Type, F β → σ' → Prop} {related' : Nat → σ' → τ' → Prop}
    (first : Affords weight upper guard lower guard' related) (second : Affords weight' upper' guarded lower' guarded' related')
    (less : ∀ {few many below above}, few ≤ many → related many below above → related few below above)
    (less' : ∀ {few many below above}, few ≤ many → related' many below above → related' few below above) :
    Affords (SumOp.weight weight weight') (upper.sum upper') (SumOp.Guard guard guarded) (lower.sum lower')
      (SumOp.Guard guard' guarded') fun spare below above => related spare below.1 above.1 ∧ related' spare below.2 above.2 := by
  rintro β effect spare ⟨below, below'⟩ ⟨above, above'⟩ after _ ⟨paid, paid'⟩ kept step
  cases effect with
  | left effect =>
      obtain ⟨⟨answer, next⟩, moved, same⟩ := Option.map_eq_some_iff.mp step
      cases same
      obtain ⟨kept', final, stepped, left⟩ := first _ effect spare below above next answer paid kept moved
      refine ⟨kept', (final, below'), ?_, left, less' (Nat.le_add_left ..) paid'⟩
      simp only [Meaning.sum, stepped, Option.map_some]
  | right effect =>
      obtain ⟨⟨answer, next⟩, moved, same⟩ := Option.map_eq_some_iff.mp step
      cases same
      obtain ⟨kept', final, stepped, left⟩ := second _ effect spare below' above' next answer paid' kept moved
      refine ⟨kept', (below, final), ?_, less (Nat.le_add_left ..) paid, left⟩
      simp only [Meaning.sum, stepped, Option.map_some]

end Budget

end MyJQL.Library
