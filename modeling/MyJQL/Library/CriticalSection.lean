import MyJQL.Library.Program

/-!
# Calls under one lock

Threads move by themselves until one asks for a call on an object that all of them share. A
call is a program: the thread takes the lock, makes its effects one by one while the others
move, and releases the lock with the answer. Every run with a lock is, seen from outside the
lock, a run in which each call takes one step, and if one call keeps what the object holds
then the history of a run is a history of the object alone.
-/

namespace MyJQL.Library

universe u v w

/-- A thread moves by itself until it asks for a call, and goes on with the answer. -/
structure Thread (S : Type u) (Q : Type v) (A : Type w) where
  move : S → S → Prop
  asks : S → Option (Q × (A → S))
  keeps : ∀ {state after : S} {call : Q} {next : A → S}, move state after → asks state = some (call, next) →
    ∃ next', asks after = some (call, next')

/-- What a thread was answered. -/
structure Event (T : Type u) (Q : Type v) (A : Type w) where
  name : T
  call : Q
  answer : A

/-! ## Calls of one step -/

/-- Threads with an object whose calls take one step. -/
structure Atomic (T : Type u) (S : Type v) (σ : Type w) (Q A : Type) where
  locals : T → S
  shared : σ
  history : List (Event T Q A)

namespace Atomic

variable {T : Type u} {S : Type v} {σ Q A : Type} {E : Type → Type} [DecidableEq T]

inductive Step (thread : T → Thread S Q A) (body : Q → Prog E A) (meaning : Meaning E σ) :
    Atomic T S σ Q A → Atomic T S σ Q A → Prop where
  | move {state : Atomic T S σ Q A} {name : T} {after : S} (moved : (thread name).move (state.locals name) after) :
      Step thread body meaning state { state with locals := Function.update state.locals name after }
  | call {state : Atomic T S σ Q A} {name : T} {call : Q} {next : A → S} {answer : A} {after : σ}
      (asked : (thread name).asks (state.locals name) = some (call, next))
      (ran : (body call).run meaning state.shared = some (answer, after)) :
      Step thread body meaning state
        ⟨Function.update state.locals name (next answer), after, state.history ++ [⟨name, call, answer⟩]⟩

abbrev Reaches (thread : T → Thread S Q A) (body : Q → Prog E A) (meaning : Meaning E σ) :
    Atomic T S σ Q A → Atomic T S σ Q A → Prop :=
  Relation.ReflTransGen (Step thread body meaning)

end Atomic

/-! ## Calls under a lock -/

/-- Threads with a lock. The holder has a call under way, and what is left of it. -/
structure Locked (T : Type u) (S : Type v) (σ Q A : Type) (E : Type → Type) where
  locals : T → S
  holder : Option (T × Q × Prog E A)
  shared : σ
  history : List (Event T Q A)

namespace Locked

variable {T : Type u} {S : Type v} {σ Q A : Type} {E : Type → Type} [DecidableEq T]

inductive Step (thread : T → Thread S Q A) (body : Q → Prog E A) (meaning : Meaning E σ) :
    Locked T S σ Q A E → Locked T S σ Q A E → Prop where
  | move {state : Locked T S σ Q A E} {name : T} {after : S}
      (moved : (thread name).move (state.locals name) after) :
      Step thread body meaning state { state with locals := Function.update state.locals name after }
  | enter {state : Locked T S σ Q A E} {name : T} {call : Q} {next : A → S} (free : state.holder = none)
      (asked : (thread name).asks (state.locals name) = some (call, next)) :
      Step thread body meaning state { state with holder := some (name, call, body call) }
  | work {state : Locked T S σ Q A E} {name : T} {call : Q} {β : Type} {effect : E β} {rest : β → Prog E A}
      {result : β} {after : σ} (inside : state.holder = some (name, call, .op effect rest))
      (done : meaning _ effect state.shared = some (result, after)) :
      Step thread body meaning state { state with holder := some (name, call, rest result), shared := after }
  | leave {state : Locked T S σ Q A E} {name : T} {call : Q} {answer : A} {next : A → S}
      (inside : state.holder = some (name, call, .pure answer))
      (asked : (thread name).asks (state.locals name) = some (call, next)) :
      Step thread body meaning state
        ⟨Function.update state.locals name (next answer), none, state.shared, state.history ++ [⟨name, call, answer⟩]⟩

abbrev Reaches (thread : T → Thread S Q A) (body : Q → Prog E A) (meaning : Meaning E σ) :
    Locked T S σ Q A E → Locked T S σ Q A E → Prop :=
  Relation.ReflTransGen (Step thread body meaning)

/-- Nobody holds the lock. -/
def unlocked (state : Atomic T S σ Q A) : Locked T S σ Q A E := ⟨state.locals, none, state.shared, state.history⟩

variable {thread : T → Thread S Q A} {body : Q → Prog E A} {meaning : Meaning E σ}

/-! ### The lock hides the parts of a call -/

/-- What the rest of the call under way makes of the object, the whole call makes of the object before it. -/
def Within (thread : T → Thread S Q A) (body : Q → Prog E A) (meaning : Meaning E σ) (state : Locked T S σ Q A E)
    (before : σ) : Prop :=
  match state.holder with
  | none => state.shared = before
  | some (name, call, rest) =>
      rest.run meaning state.shared = (body call).run meaning before ∧
        ∃ next, (thread name).asks (state.locals name) = some (call, next)

/-- The state without the call under way. -/
def outside (state : Locked T S σ Q A E) (before : σ) : Atomic T S σ Q A := ⟨state.locals, before, state.history⟩

theorem Within.move {state : Locked T S σ Q A E} {before : σ} {name : T} {after : S}
    (within : Within thread body meaning state before) (moved : (thread name).move (state.locals name) after) :
    Within thread body meaning { state with locals := Function.update state.locals name after } before := by
  obtain ⟨locals, holder, shared, history⟩ := state
  cases holder with
  | none => exact within
  | some held =>
      obtain ⟨other, call, rest⟩ := held
      obtain ⟨ran, next, asked⟩ := within
      refine ⟨ran, ?_⟩
      change ∃ next, (thread other).asks (Function.update locals name after other) = some (call, next)
      by_cases same : other = name
      · subst same
        rw [Function.update_self]
        exact (thread other).keeps moved asked
      · rw [Function.update_of_ne same]
        exact ⟨next, asked⟩

/-- A step with the lock is a step without it, or none. -/
theorem Within.step {state after : Locked T S σ Q A E} {before : σ} (within : Within thread body meaning state before)
    (step : Step thread body meaning state after) :
    ∃ before', Within thread body meaning after before' ∧
      Relation.ReflGen (Atomic.Step thread body meaning) (state.outside before) (after.outside before') := by
  cases step with
  | move moved => exact ⟨before, within.move moved, .single (.move moved)⟩
  | enter free asked =>
      unfold Within at within
      rw [free] at within
      cases within
      exact ⟨state.shared, ⟨rfl, _, asked⟩, .refl⟩
  | work inside done =>
      unfold Within at within
      rw [inside] at within
      obtain ⟨ran, next, asked⟩ := within
      refine ⟨before, ⟨?_, next, asked⟩, .refl⟩
      rw [← ran, Prog.run, done]
      rfl
  | leave inside asked =>
      unfold Within at within
      rw [inside] at within
      exact ⟨state.shared, rfl, .single (.call asked within.1.symm)⟩

/-- A run with the lock is a run without it. -/
theorem Reaches.atomic {start : Atomic T S σ Q A} {state : Locked T S σ Q A E}
    (reached : Reaches thread body meaning (unlocked start) state) :
    ∃ before, Within thread body meaning state before ∧
      Atomic.Reaches thread body meaning start (state.outside before) := by
  induction reached with
  | refl => exact ⟨start.shared, rfl, .refl⟩
  | tail _ step ih =>
      obtain ⟨before, within, earlier⟩ := ih
      obtain ⟨before', within', last⟩ := within.step step
      exact ⟨before', within', earlier.trans last.to_reflTransGen⟩

/-- Events are added at the end of the history. -/
theorem Reaches.history {state after : Locked T S σ Q A E} (reached : Reaches thread body meaning state after) :
    state.history <+: after.history := by
  induction reached with
  | refl => exact List.prefix_refl _
  | tail _ step ih =>
      refine ih.trans ?_
      cases step with
      | move moved => exact List.prefix_refl _
      | enter free asked => exact List.prefix_refl _
      | work inside done => exact List.prefix_refl _
      | leave inside asked => exact List.prefix_append _ _

/-! ### A call can be made under the lock -/

/-- What is left of a call that is defined can be done. -/
theorem reaches_left {state : Locked T S σ Q A E} {name : T} {call : Q} {rest : Prog E A} {next : A → S} {answer : A}
    {after : σ} (inside : state.holder = some (name, call, rest))
    (asked : (thread name).asks (state.locals name) = some (call, next))
    (ran : rest.run meaning state.shared = some (answer, after)) :
    Reaches thread body meaning state
      ⟨Function.update state.locals name (next answer), none, after, state.history ++ [⟨name, call, answer⟩]⟩ := by
  induction rest generalizing state with
  | pure value =>
      cases ran
      exact .single (.leave inside asked)
  | fail => cases ran
  | op effect inner ih =>
      obtain ⟨⟨result, middle⟩, done, later⟩ := Option.bind_eq_some_iff.mp ran
      exact .head (.work inside done) (ih result rfl asked later)

/-- A step without the lock can be made with it. -/
theorem reaches_step {state after : Atomic T S σ Q A} (step : Atomic.Step thread body meaning state after) :
    Reaches thread body meaning (unlocked state) (unlocked after) := by
  cases step with
  | move moved => exact .single (.move moved)
  | call asked ran => exact .head (.enter rfl asked) (reaches_left rfl asked ran)

theorem reaches_unlocked {state after : Atomic T S σ Q A} (reached : Atomic.Reaches thread body meaning state after) :
    Reaches thread body meaning (unlocked state) (unlocked after) := by
  induction reached with
  | refl => exact .refl
  | tail _ step ih => exact ih.trans (reaches_step step)

/-- If calls are defined, the one under way can be done, and nobody holds the lock after it. -/
theorem Within.unlocks {state : Locked T S σ Q A E} {before : σ} (within : Within thread body meaning state before)
    (defined : ∀ {name : T} {call : Q} {next : A → S}, (thread name).asks (state.locals name) = some (call, next) →
      ∃ result, (body call).run meaning before = some result) :
    ∃ after, Reaches thread body meaning state (unlocked after) ∧
      Atomic.Reaches thread body meaning (state.outside before) after := by
  obtain ⟨locals, holder, shared, history⟩ := state
  cases holder with
  | none =>
      cases within
      exact ⟨⟨locals, shared, history⟩, .refl, .refl⟩
  | some held =>
      obtain ⟨name, call, rest⟩ := held
      obtain ⟨ran, next, asked⟩ := within
      obtain ⟨⟨answer, after⟩, done⟩ := defined asked
      exact ⟨_, reaches_left rfl asked (ran.trans done), .single (.call asked done)⟩

end Locked

/-! ## The object -/

section Object

variable {T : Type u} {Q A M : Type}

/-- The object after the calls of a history. -/
def replay (spec : Q → M → A × M) (start : M) (history : List (Event T Q A)) : M :=
  history.foldl (fun model event => (spec event.call model).2) start

/-- Every answer is that of the object after the calls before it. -/
def Legal (spec : Q → M → A × M) : M → List (Event T Q A) → Prop
  | _, [] => True
  | model, event :: rest => event.answer = (spec event.call model).1 ∧ Legal spec (spec event.call model).2 rest

variable {spec : Q → M → A × M} {start : M} {history : List (Event T Q A)} {event : Event T Q A}

theorem replay_concat : replay spec start (history ++ [event]) = (spec event.call (replay spec start history)).2 := by
  rw [replay, List.foldl_append]
  rfl

theorem Legal.concat (legal : Legal spec start history)
    (answered : event.answer = (spec event.call (replay spec start history)).1) :
    Legal spec start (history ++ [event]) := by
  induction history generalizing start with
  | nil => exact ⟨answered, trivial⟩
  | cons first rest ih => exact ⟨legal.1, ih legal.2 answered⟩

/-- What every answer of a legal history is, if every answer of the object on a reachable state is so. -/
theorem Legal.answers {inv : M → Prop} {good : Q → A → Prop} (legal : Legal spec start history) (holds : inv start)
    (keeps : ∀ event ∈ history, ∀ model, inv model → inv (spec event.call model).2)
    (answers : ∀ call model, inv model → good call (spec call model).1) :
    ∀ event ∈ history, good event.call event.answer := by
  induction history generalizing start with
  | nil => exact fun _ member => absurd member List.not_mem_nil
  | cons first rest ih =>
      obtain ⟨here, later⟩ := legal
      intro event member
      rcases List.mem_cons.mp member with rfl | member
      · rw [here]
        exact answers _ _ holds
      · exact ih later (keeps first List.mem_cons_self start holds)
          (fun other inside => keeps other (List.mem_cons_of_mem _ inside)) event member

end Object

end MyJQL.Library
