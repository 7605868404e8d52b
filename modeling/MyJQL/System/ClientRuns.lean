import MyJQL.System.Clients

/-!
# Runs of many clients

In every run each client sees what its program sees when the engine answers it from one
history, which is a history of a map from keys to values. No client can be kept from its end.
-/

namespace MyJQL.System

open Library Library.Prog Server Engine

/-! ## One client to its end -/

section Alone

variable {L : Type → Type} {ρ α : Type} {own : Meaning L ρ} {user : User L ρ α} {state after : Process L ρ α}
  {answers : List (Option (List UInt8))} {call : EngineCall} {next : Option (List UInt8) → Process L ρ α}
  {value : α} {owned : ρ} {calls : List Call}

/-- A client that has finished, and a server thread that has left its loop. -/
def ended (value : α) (owned : ρ) (calls : List Call) : Process L ρ α :=
  ⟨(.pure value, (owned, ())), (.pure .exits, calls), [], []⟩

theorem not_followsOnce_ended : ¬ FollowsOnce own user answers (ended value owned calls) after := by
  intro step
  cases step with
  | left step => cases step
  | right step => cases step

theorem plainWorld_recorded (plain : ∀ answer ∈ answers, PlainAnswer answer) (junk : List Call → Nat → UInt8) :
    PlainWorld (recorded answers junk) := by
  intro calls key value found
  have here : answers[calls.length]? = some (some value) := by
    cases known : answers[calls.length]? with
    | none =>
        simp only [recorded, known, Option.getD_none] at found
        cases found
    | some answer =>
        simp only [recorded, known, Option.getD_some] at found
        rw [found]
  exact plain _ (List.mem_of_getElem? here) value rfl

/-- A proper call that reaches the engine is good. -/
theorem good_request {call made : Call} (proper : Proper call) (reaches : call.request.call = some made) : Good made := by
  cases call with
  | get key =>
      simp only [Call.request, Request.call] at reaches
      split at reaches
      · cases reaches
        trivial
      · cases reaches
  | set key value =>
      simp only [Call.request, Request.call] at reaches
      split at reaches
      · rename_i short
        cases reaches
        exact ⟨⟨proper.1.1, short.1⟩, proper.2.1, short.2, proper.2.2.2⟩
      · cases reaches
  | del key =>
      simp only [Call.request, Request.call] at reaches
      split at reaches
      · cases reaches
        trivial
      · cases reaches

/-- The calls that a program makes are good, and no more than its bound. -/
theorem made_good {world : World} {program : UserProg L α} {bound : Nat} {owned' : ρ} {calls' : List Call}
    (proper : program.Meets properCalls fun _ => True) (few : program.Within callWeight bound)
    (ran : program.run (userMeaning own world) (owned, calls) = some (value, (owned', calls'))) :
    ∃ made, calls' = calls ++ made ∧ (∀ call ∈ made, Good call) ∧ made.length ≤ bound := by
  induction program generalizing bound owned calls with
  | pure inner =>
      cases ran
      exact ⟨[], (List.append_nil _).symm, fun _ member => absurd member List.not_mem_nil, Nat.zero_le _⟩
  | fail => cases ran
  | op effect inner ih =>
      obtain ⟨⟨result, middle, calls1⟩, step, later⟩ := Option.bind_eq_some_iff.mp ran
      obtain ⟨rest, cost, fewer⟩ := few
      obtain ⟨made, rfl, good, count⟩ := ih result (proper.2 _ trivial) (fewer _) later
      cases effect with
      | left effect =>
          obtain ⟨⟨answer, after⟩, -, same⟩ := Option.map_eq_some_iff.mp step
          cases same
          exact ⟨made, rfl, good, count.trans ((Nat.le_add_left ..).trans cost)⟩
      | right effect =>
          obtain ⟨call⟩ := effect
          cases step
          have one : call.request.call.toList.length ≤ 1 := by
            cases call.request.call with
            | none => exact Nat.zero_le _
            | some call => exact le_rfl
          refine ⟨call.request.call.toList ++ made, List.append_assoc .., ?_, ?_⟩
          · intro other member
            rcases List.mem_append.mp member with first | later
            · exact good_request proper.1 (Option.mem_toList.mp first)
            · exact good other later
          · rw [List.length_append]
            exact (Nat.add_le_add one count).trans cost

/-- A client with recorded answers ends as its program does. -/
theorem User.Sound.ends (sound : user.Sound own) (plain : ∀ answer ∈ answers, PlainAnswer answer) :
    ∃ value owned calls, user.view own answers = some (value, owned, calls) ∧
      Follows own user answers user.start (ended value owned calls) ∧ (∀ call ∈ calls, Good call) ∧
        calls.length ≤ user.bound := by
  obtain ⟨⟨value, owned, calls⟩, ran⟩ := Option.ne_none_iff_exists'.mp (sound.defined answers)
  obtain ⟨made, rfl, good, count⟩ := made_good sound.proper sound.few ran
  obtain ⟨left, code, steps⟩ := @proceeds_program L ρ α own _ user.memory user.error _ _ user.code (user.spare + 1) _ _ value owned _ _
    (fun value => (onRight clientClose).bind fun _ => .pure value) (plainWorld_recorded plain user.junk) sound.proper
    sound.few ran
  exact ⟨value, owned, _, ran, steps.trans (proceeds_close _), good, count⟩

/-- Whatever a client has done, it can go on to its end. -/
theorem Follows.toEnd (follows : Follows own user answers user.start state) (sound : user.Sound own)
    (plain : ∀ answer ∈ answers, PlainAnswer answer) :
    ∃ value owned calls, user.view own answers = some (value, owned, calls) ∧
      Follows own user answers state (ended value owned calls) ∧ (∀ call ∈ calls, Good call) ∧
        calls.length ≤ user.bound := by
  obtain ⟨value, owned, calls, ran, steps, good, count⟩ := sound.ends plain
  exact ⟨value, owned, calls, ran, steps.of_final (fun _ => not_followsOnce_ended) follows, good, count⟩

/-- A client asks the engine for good calls only, and for no more than its bound. -/
theorem Follows.asks_good (follows : Follows own user answers user.start state) (sound : user.Sound own)
    (plain : ∀ answer ∈ answers, PlainAnswer answer) (asked : asks state = some (call, next)) :
    Good call.toCall ∧ state.right.2.length < user.bound := by
  obtain ⟨value, owned, calls, -, steps, good, count⟩ :=
    Follows.toEnd (follows.tail (followsOnce_asked asked answers)) sound plain
  have made := Follows.calls steps
  rw [((asked_step asked answers user.junk).2 _).2] at made
  refine ⟨good _ (made.subset (List.mem_append_right _ (List.mem_singleton_self _))), ?_⟩
  have longer := made.length_le.trans count
  rw [List.length_append, List.length_singleton] at longer
  exact longer

/-- On its way to the end a client moves by itself until it asks for a call. -/
theorem Follows.untilAsked (follows : Follows own user answers state after) :
    ∃ middle, Relation.ReflTransGen (Moves own user) state middle ∧
      (middle = after ∨ ∃ call next, asks middle = some (call, next)) := by
  induction follows using Relation.ReflTransGen.head_induction_on with
  | refl => exact ⟨after, .refl, .inl rfl⟩
  | @head first second step _ ih =>
      rcases FollowsOnce.cases step with moved | asked
      · obtain ⟨middle, moves, last⟩ := ih
        exact ⟨middle, .head moved moves, last⟩
      · exact ⟨first, .refl, .inr asked⟩

end Alone

/-! ## Two clients with one key -/

def noEffects : Meaning (fun _ => Empty) Unit := fun _ effect _ => nomatch effect

/-- A client that sets a key and then asks for it; it has no effects of its own. -/
def setThenGet (key value : List UInt8) : User (fun _ => Empty) Unit Reply where
  program := (perform (.right (.call (.set key value)))).bind fun _ => perform (.right (.call (.get key)))
  owned := ()
  bound := 2
  spare := 0
  memory _ := 0
  error := socketError
  junk _ _ := 0
  code := 0

/-- Two clients that write different values under the key 7. -/
def rivals (first : Bool) : User (fun _ => Empty) Unit Reply := setThenGet [7] (if first then [1] else [2])

theorem rivals_sound (first : Bool) : (rivals first).Sound noEffects := by
  have proper : Proper (.set [7] (if first then [1] else [2])) := by
    cases first <;> decide
  have asks' : Proper (.get [7]) := by decide
  refine ⟨⟨proper, fun _ _ => ⟨asks', fun _ _ => trivial⟩⟩, ?_, fun answers => ?_⟩
  · exact ⟨1, le_rfl, fun _ => ⟨0, le_rfl, fun _ => trivial⟩⟩
  · exact Option.some_ne_none _

/-! ## Clients together -/

section Together

variable {C : Type} [DecidableEq C] {L : Type → Type} {ρ α : Type}

/-- The clients without the lock, each call one step. -/
abbrev Atoms (C : Type) (L : Type → Type) (ρ α : Type) : Type 1 :=
  Atomic C (Process L ρ α) EngineMaps EngineCall (Option (List UInt8))

/-- What one client has asked the engine, and been answered. -/
def mine (name : C) (history : List (Event C EngineCall (Option (List UInt8)))) :
    List (Event C EngineCall (Option (List UInt8))) :=
  history.filter fun event => decide (event.name = name)

def opened (users : C → User L ρ α) (maps : EngineMaps) : Atoms C L ρ α := ⟨fun name => (users name).start, maps, []⟩

/-- What is known of the clients and of the engine between calls. -/
structure Coherent (own : Meaning L ρ) (users : C → User L ρ α) (start : Contents) (state : Atoms C L ρ α) : Prop where
  legal : Legal EngineCall.spec start state.history
  holds : FilesHold (replay EngineCall.spec start state.history) state.shared
  plain : PlainContents (replay EngineCall.spec start state.history)
  answers : ∀ event ∈ state.history, PlainAnswer event.answer
  calls : ∀ name, (state.locals name).right.2 = (mine name state.history).map fun event => event.call.toCall
  follows : ∀ name answers, (mine name state.history).map Event.answer <+: answers →
    Follows own (users name) answers (users name).start (state.locals name)

variable {own : Meaning L ρ} {users : C → User L ρ α} {start : Contents} {state after : Atoms C L ρ α} {name : C}

theorem mine_concat_self (history : List (Event C EngineCall (Option (List UInt8)))) (call : EngineCall)
    (answer : Option (List UInt8)) :
    mine name (history ++ [⟨name, call, answer⟩]) = mine name history ++ [⟨name, call, answer⟩] := by
  rw [mine, List.filter_append, List.filter_singleton, decide_eq_true rfl]
  rfl

theorem mine_concat_of_ne {other : C} (different : other ≠ name)
    (history : List (Event C EngineCall (Option (List UInt8)))) (call : EngineCall) (answer : Option (List UInt8)) :
    mine other (history ++ [⟨name, call, answer⟩]) = mine other history := by
  have away : decide (name = other) = false := decide_eq_false different.symm
  rw [mine, List.filter_append, List.filter_singleton, away]
  exact List.append_nil _

/-- The answers of one client are plain. -/
theorem Coherent.plainAnswers (coherent : Coherent own users start state) (name : C) :
    ∀ answer ∈ (mine name state.history).map Event.answer, PlainAnswer answer := by
  intro answer member
  obtain ⟨event, inside, rfl⟩ := List.mem_map.mp member
  exact coherent.answers event (List.mem_of_mem_filter inside)

theorem Coherent.opened {maps : EngineMaps} (holds : FilesHold start maps) (plain : PlainContents start) :
    Coherent own users start (opened users maps) :=
  ⟨trivial, holds, plain, fun _ member => absurd member List.not_mem_nil, fun _ => rfl, fun _ _ _ => .refl⟩

theorem Coherent.move (coherent : Coherent own users start state) {after : Process L ρ α}
    (moved : Moves own (users name) (state.locals name) after) :
    Coherent own users start { state with locals := Function.update state.locals name after } := by
  refine ⟨coherent.legal, coherent.holds, coherent.plain, coherent.answers, fun other => ?_, fun other answers extends' => ?_⟩
  · by_cases same : other = name
    · subst same
      simp only [Function.update_self]
      rw [moved.calls]
      exact coherent.calls other
    · simp only [Function.update_of_ne same]
      exact coherent.calls other
  · by_cases same : other = name
    · subst same
      simp only [Function.update_self]
      exact (coherent.follows other answers extends').tail moved.once
    · simp only [Function.update_of_ne same]
      exact coherent.follows other answers extends'

/-- A call of the engine under the lock is answered as the map of the history answers it. -/
theorem Coherent.call (coherent : Coherent own users start state) (sound : ∀ name, (users name).Sound own)
    {call : EngineCall} {next : Option (List UInt8) → Process L ρ α} {answer : Option (List UInt8)} {after : EngineMaps}
    (asked : asks (state.locals name) = some (call, next))
    (ran : call.body.run engineMeaning state.shared = some (answer, after)) :
    Coherent own users start
      ⟨Function.update state.locals name (next answer), after, state.history ++ [⟨name, call, answer⟩]⟩ := by
  have own' := coherent.follows name _ (List.prefix_refl _)
  obtain ⟨good, -⟩ := Follows.asks_good own' (sound name) (coherent.plainAnswers name) asked
  obtain ⟨after', ran', holds⟩ := run_body coherent.holds coherent.plain good
  rw [ran'] at ran
  cases ran
  refine ⟨coherent.legal.concat rfl, ?_, ?_, ?_, fun other => ?_, fun other answers extends' => ?_⟩
  · rw [replay_concat]
    exact holds
  · rw [replay_concat]
    exact coherent.plain.after good
  · intro event member
    rcases List.mem_append.mp member with earlier | last
    · exact coherent.answers event earlier
    · cases List.mem_singleton.mp last
      exact coherent.plain.answer
  · by_cases same : other = name
    · subst same
      simp only [Function.update_self, mine_concat_self, List.map_append, List.map_singleton]
      rw [((asked_step asked [] (users other).junk).2 _).2, coherent.calls other]
    · simp only [Function.update_of_ne same, mine_concat_of_ne same]
      exact coherent.calls other
  · by_cases same : other = name
    · subst same
      simp only [Function.update_self]
      rw [mine_concat_self, List.map_append, List.map_singleton] at extends'
      have here : answers[(state.locals other).right.2.length]? =
          some (call.spec (replay EngineCall.spec start state.history)).1 := by
        obtain ⟨rest, rfl⟩ := extends'
        rw [coherent.calls other, List.length_map, List.append_assoc,
          List.getElem?_append_right (List.length_map ..).le, List.length_map, Nat.sub_self]
        rfl
      have once := @followsOnce_asked L ρ α own (users other) _ call next asked answers
      rw [answered_eq (fitting_spec ..) here] at once
      exact (coherent.follows other answers ((List.prefix_append _ _).trans extends')).tail once
    · simp only [Function.update_of_ne same]
      rw [mine_concat_of_ne same] at extends'
      exact coherent.follows other answers extends'

theorem Coherent.step (coherent : Coherent own users start state) (sound : ∀ name, (users name).Sound own)
    (step : Atomic.Step (fun name => (users name).thread own) EngineCall.body engineMeaning state after) :
    Coherent own users start after := by
  cases step with
  | move moved => exact coherent.move moved
  | call asked ran => exact coherent.call sound asked ran

theorem Coherent.reaches (coherent : Coherent own users start state) (sound : ∀ name, (users name).Sound own)
    (reached : Atomic.Reaches (fun name => (users name).thread own) EngineCall.body engineMeaning state after) :
    Coherent own users start after := by
  induction reached with
  | refl => exact coherent
  | tail _ step ih => exact ih.step sound step

/-! ### The end of a run -/

/-- A call that a client asks for is defined. -/
theorem Coherent.defined (coherent : Coherent own users start state) (sound : ∀ name, (users name).Sound own)
    {call : EngineCall} {next : Option (List UInt8) → Process L ρ α} (asked : asks (state.locals name) = some (call, next)) :
    ∃ result, call.body.run engineMeaning state.shared = some result := by
  obtain ⟨good, -⟩ := Follows.asks_good (coherent.follows name _ (List.prefix_refl _)) (sound name)
    (coherent.plainAnswers name) asked
  obtain ⟨after, ran, -⟩ := run_body coherent.holds coherent.plain good
  exact ⟨_, ran⟩

theorem moves_calls {first last : Process L ρ α} {user : User L ρ α}
    (moves : Relation.ReflTransGen (Moves own user) first last) : last.right.2 = first.right.2 := by
  induction moves with
  | refl => rfl
  | tail _ step ih => exact step.calls.trans ih

/-- Moves of one client are steps in which the others and the engine stand still. -/
theorem reaches_moves {middle : Process L ρ α}
    (moves : Relation.ReflTransGen (Moves own (users name)) (state.locals name) middle) :
    Atomic.Reaches (fun name => (users name).thread own) EngineCall.body engineMeaning state
      { state with locals := Function.update state.locals name middle } := by
  induction moves with
  | refl =>
      rw [Function.update_eq_self]
  | @tail first second _ step ih =>
      refine ih.tail ?_
      have moved : Moves own (users name) (Function.update state.locals name first name) second := by
        rw [Function.update_self]
        exact step
      have once : Atomic.Step (fun name => (users name).thread own) EngineCall.body engineMeaning
          { state with locals := Function.update state.locals name first } _ := .move moved
      rw [Function.update_idem] at once
      exact once

/-- The client and its server thread are done. -/
def Done (state : Process L ρ α) : Prop := ∃ value owned calls, state = ended value owned calls

/-- One client goes on until it is done, or until one more of its calls is answered. -/
theorem Coherent.advance (coherent : Coherent own users start state) (sound : ∀ name, (users name).Sound own) (name : C) :
    ∃ after, Atomic.Reaches (fun name => (users name).thread own) EngineCall.body engineMeaning state after ∧
      (∀ other, other ≠ name → after.locals other = state.locals other) ∧
        (Done (after.locals name) ∨ (state.locals name).right.2.length < (users name).bound ∧
          (after.locals name).right.2.length = (state.locals name).right.2.length + 1) := by
  have follows := coherent.follows name _ (List.prefix_refl _)
  obtain ⟨value, owned, calls, -, steps, -, -⟩ := Follows.toEnd follows (sound name) (coherent.plainAnswers name)
  obtain ⟨middle, moves, last⟩ := Follows.untilAsked steps
  have moved : Atomic.Reaches _ _ _ state _ := reaches_moves moves
  have other' : ∀ other, other ≠ name → Function.update state.locals name middle other = state.locals other :=
    fun other different => Function.update_of_ne different ..
  rcases last with rfl | ⟨call, next, asked⟩
  · refine ⟨_, moved, other', .inl ⟨value, owned, calls, ?_⟩⟩
    exact Function.update_self ..
  · have asked' : asks (Function.update state.locals name middle name) = some (call, next) := by
      rw [Function.update_self]
      exact asked
    have coherent' := coherent.reaches sound moved
    obtain ⟨⟨answer, engine⟩, ran⟩ := coherent'.defined sound asked'
    obtain ⟨-, few⟩ := Follows.asks_good (coherent'.follows name _ (List.prefix_refl _)) (sound name)
      (coherent'.plainAnswers name) asked'
    have same : middle.right.2 = (state.locals name).right.2 := moves_calls moves
    have made := ((asked_step asked [] (users name).junk).2 answer).2
    simp only [Function.update_self, same] at few
    refine ⟨_, moved.tail (.call asked' ran), fun other different => ?_, .inr ⟨few, ?_⟩⟩
    · exact (Function.update_of_ne different ..).trans (other' other different)
    · simp only [Function.update_self, made, same, List.length_append, List.length_singleton]

/-- One client can go on to its end while the others stand still. -/
theorem Coherent.finish (coherent : Coherent own users start state) (sound : ∀ name, (users name).Sound own)
    (name : C) : ∃ after, Atomic.Reaches (fun name => (users name).thread own) EngineCall.body engineMeaning state after ∧
      (∀ other, other ≠ name → after.locals other = state.locals other) ∧ Done (after.locals name) := by
  obtain ⟨left, fits⟩ : ∃ left, (users name).bound ≤ (state.locals name).right.2.length + left :=
    ⟨_, Nat.le_add_left ..⟩
  induction left generalizing state with
  | zero =>
      obtain ⟨after, reached, others, done | ⟨few, -⟩⟩ := coherent.advance sound name
      · exact ⟨after, reached, others, done⟩
      · exact absurd few (Nat.not_lt.mpr fits)
  | succ left ih =>
      obtain ⟨middle, first, others, done | ⟨-, longer⟩⟩ := coherent.advance sound name
      · exact ⟨middle, first, others, done⟩
      · obtain ⟨after, later, others', done⟩ := ih (coherent.reaches sound first) (by omega)
        exact ⟨after, first.trans later, fun other different => (others' other different).trans (others other different), done⟩

/-- Any clients can go on to their ends. -/
theorem Coherent.finishAll (coherent : Coherent own users start state) (sound : ∀ name, (users name).Sound own)
    (names : Finset C) : ∃ after, Atomic.Reaches (fun name => (users name).thread own) EngineCall.body engineMeaning state after ∧
      ∀ name ∈ names, Done (after.locals name) := by
  induction names using Finset.induction_on with
  | empty => exact ⟨state, .refl, fun _ member => absurd member (Finset.notMem_empty _)⟩
  | insert name names absent ih =>
      obtain ⟨middle, first, done⟩ := ih
      obtain ⟨after, later, others, last⟩ := (coherent.reaches sound first).finish sound name
      refine ⟨after, first.trans later, fun other member => ?_⟩
      by_cases same : other = name
      · exact same ▸ last
      · rw [others other same]
        exact done other ((Finset.mem_insert.mp member).resolve_left same)

/-! ### Runs with the lock -/

/-- The runs of clients whose server threads use the engine inside the critical section. -/
abbrev Runs (own : Meaning L ρ) (users : C → User L ρ α) :
    Locked C (Process L ρ α) EngineMaps EngineCall (Option (List UInt8)) EngineOp →
      Locked C (Process L ρ α) EngineMaps EngineCall (Option (List UInt8)) EngineOp → Prop :=
  Locked.Reaches (fun name => (users name).thread own) EngineCall.body engineMeaning

/-- A client and a thread that have nothing left to do are where recorded answers take them. -/
theorem Coherent.done (coherent : Coherent own users start state) (sound : ∀ name, (users name).Sound own) {value : α}
    {owned : ρ} {outcome : Outcome} {calls : List Call} (left : (state.locals name).left = (.pure value, (owned, ())))
    (right : (state.locals name).right = (.pure outcome, calls)) :
    (users name).view own ((mine name state.history).map Event.answer) = some (value, owned, calls) := by
  obtain ⟨value', owned', calls', seen, steps, -, -⟩ :=
    Follows.toEnd (coherent.follows name _ (List.prefix_refl _)) (sound name) (coherent.plainAnswers name)
  rcases Relation.ReflTransGen.cases_head steps with same | ⟨next, step, -⟩
  · rw [same] at left right
    cases left
    cases right
    exact seen
  · cases step with
    | left step =>
        rw [left] at step
        cases step
    | right step =>
        rw [right] at step
        cases step

theorem Runs.coherent {maps : EngineMaps} {state : Locked C (Process L ρ α) EngineMaps EngineCall (Option (List UInt8)) EngineOp}
    (sound : ∀ name, (users name).Sound own) (opens : myjqlInit noFiles = some maps)
    (reached : Runs own users (Locked.unlocked (opened users maps)) state) :
    ∃ before, Locked.Within (fun name => (users name).thread own) EngineCall.body engineMeaning state before ∧
      Coherent own users (fun _ => none) (state.outside before) := by
  obtain ⟨before, within, earlier⟩ := reached.atomic
  obtain ⟨maps', opens', holds⟩ := run_myjqlInit
  rw [opens] at opens'
  cases opens'
  exact ⟨before, within, (Coherent.opened holds nofun).reaches sound earlier⟩

end Together

end MyJQL.System
