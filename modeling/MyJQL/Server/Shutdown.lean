import MyJQL.Server.Wire

/-!
# Shutting the server down

Every client thread takes the lock for one call of the engine and answers after it has
released the lock. `exit_nicely` closes the engine under the same lock, releases it and
only then ends the process, so a thread that waited for the lock may still get it.
-/

namespace MyJQL.Server

/-! ## The threads -/

/-- Where a client thread stands. -/
inductive ClientPhase where
  | idle
  | received (call : Call)
  | holding (call : Call)
  | ran (call : Call)
  | released (call : Call)

/-- Where `exit_nicely` stands. -/
inductive ExitPhase where
  | waiting
  | holding
  | closed
  | released
  | socketClosed
  | exited

/-- Who owns the critical section. -/
inductive Owner (C : Type) where
  | client (name : C)
  | exitNicely

/-- What the engine was asked to do. -/
inductive Action (C : Type) where
  | ran (name : C) (call : Call)
  | closed

/-- The contents after the calls of a trace. -/
def replay {C : Type} (contents : Contents) : List (Action C) → Contents
  | [] => contents
  | .ran _ call :: rest => replay (call.apply contents) rest
  | .closed :: rest => replay contents rest

/-- The server: `memory` is what the engine holds, `files` what `myjql_close` has written. -/
structure Threads (C : Type) where
  phase : C → ClientPhase
  exiting : ExitPhase
  owner : Option (Owner C)
  memory : Contents
  files : Option Contents
  trace : List (Action C)
  acknowledged : List (C × Call)

namespace Threads

variable {C : Type} [DecidableEq C]

/-- No request has arrived and nobody owns the lock. -/
def start (contents : Contents) : Threads C :=
  ⟨fun _ => .idle, .waiting, none, contents, none, [], []⟩

/-- A client thread moves on. -/
def move (state : Threads C) (name : C) (phase : ClientPhase) : Threads C :=
  { state with phase := Function.update state.phase name phase }

/-- The steps of the threads; after `exit` there are none. -/
inductive Step : Threads C → Threads C → Prop where
  | receive {state : Threads C} {name : C} (call : Call) (running : state.exiting ≠ .exited)
      (here : state.phase name = .idle) : Step state (state.move name (.received call))
  | enter {state : Threads C} {name : C} {call : Call} (running : state.exiting ≠ .exited)
      (here : state.phase name = .received call) (free : state.owner = none) :
      Step state { state.move name (.holding call) with owner := some (.client name) }
  | run {state : Threads C} {name : C} {call : Call} (running : state.exiting ≠ .exited)
      (here : state.phase name = .holding call) :
      Step state { state.move name (.ran call) with
        memory := call.apply state.memory, trace := state.trace ++ [.ran name call] }
  | leave {state : Threads C} {name : C} {call : Call} (running : state.exiting ≠ .exited)
      (here : state.phase name = .ran call) :
      Step state { state.move name (.released call) with owner := none }
  | reply {state : Threads C} {name : C} {call : Call} (running : state.exiting ≠ .exited)
      (here : state.phase name = .released call) :
      Step state { state.move name .idle with acknowledged := state.acknowledged ++ [(name, call)] }
  | exitEnter {state : Threads C} (here : state.exiting = .waiting) (free : state.owner = none) :
      Step state { state with exiting := .holding, owner := some .exitNicely }
  | exitClose {state : Threads C} (here : state.exiting = .holding) :
      Step state { state with
        exiting := .closed, files := some state.memory, trace := state.trace ++ [.closed] }
  | exitLeave {state : Threads C} (here : state.exiting = .closed) :
      Step state { state with exiting := .released, owner := none }
  | exitSocket {state : Threads C} (here : state.exiting = .released) :
      Step state { state with exiting := .socketClosed }
  | exit {state : Threads C} (here : state.exiting = .socketClosed) :
      Step state { state with exiting := .exited }

/-- `exit_nicely` has released the lock. -/
def Open (state : Threads C) : Prop := state.exiting = .released ∨ state.exiting = .socketClosed

/-- The step does not take the lock after `exit_nicely` has released it. -/
def Orderly (state after : Threads C) : Prop :=
  Open state → ∀ name call, state.phase name = .received call → after.phase name ≠ .holding call

/-- What a clean shutdown promises of a state. -/
structure Clean (contents : Contents) (state : Threads C) : Prop where
  lastIsClose : ∀ before after, state.trace = before ++ .closed :: after → after = []
  kept : state.exiting = .exited → ∃ files, state.files = some files ∧
    files = replay contents state.trace ∧
    ∀ name call, (name, call) ∈ state.acknowledged → .ran name call ∈ state.trace

/-! ## The invariant -/

/-- What is known of a client thread in a phase. -/
def Fits (state : Threads C) (name : C) : ClientPhase → Prop
  | .idle => True
  | .received _ => True
  | .holding _ => state.owner = some (.client name) ∧ state.exiting = .waiting
  | .ran call =>
      state.owner = some (.client name) ∧ state.exiting = .waiting ∧ .ran name call ∈ state.trace
  | .released call => .ran name call ∈ state.trace

/-- The files hold the memory, and closing was the last action. -/
def Sealed (state : Threads C) : Prop :=
  state.files = some state.memory ∧ ∃ calls, state.trace = calls ++ [.closed] ∧ .closed ∉ calls

/-- What is known of `exit_nicely` in a phase. -/
def ExitFits (state : Threads C) : ExitPhase → Prop
  | .waiting => .closed ∉ state.trace
  | .holding => state.owner = some .exitNicely ∧ .closed ∉ state.trace
  | .closed => state.owner = some .exitNicely ∧ Sealed state
  | .released => Sealed state
  | .socketClosed => Sealed state
  | .exited => Sealed state

structure Invariant (contents : Contents) (state : Threads C) : Prop where
  clients : ∀ name, Fits state name (state.phase name)
  exits : ExitFits state state.exiting
  memory : state.memory = replay contents state.trace
  answered : ∀ name call, (name, call) ∈ state.acknowledged → .ran name call ∈ state.trace

omit [DecidableEq C] in
theorem replay_concat (contents : Contents) (trace : List (Action C)) (name : C) (call : Call) :
    replay contents (trace ++ [.ran name call]) = call.apply (replay contents trace) := by
  induction trace generalizing contents with
  | nil => rfl
  | cons action rest ih =>
      cases action with
      | ran other earlier => exact ih (earlier.apply contents)
      | closed => exact ih contents

omit [DecidableEq C] in
theorem replay_concat_closed (contents : Contents) (trace : List (Action C)) :
    replay contents (trace ++ [.closed]) = replay contents trace := by
  induction trace generalizing contents with
  | nil => rfl
  | cons action rest ih =>
      cases action with
      | ran other earlier => exact ih (earlier.apply contents)
      | closed => exact ih contents

/-- The other client threads of a step that only moves one of them. -/
theorem clients_move {state after : Threads C} {name : C} {phase : ClientPhase}
    (moved : after.phase = Function.update state.phase name phase) (here : Fits after name phase)
    (others : ∀ other, other ≠ name → Fits after other (state.phase other)) :
    ∀ other, Fits after other (after.phase other) := by
  intro other
  rw [moved]
  by_cases same : other = name
  · subst same
    rw [Function.update_self]
    exact here
  · rw [Function.update_of_ne same]
    exact others other same

omit [DecidableEq C] in
/-- What is known of a thread stays so when the lock and `exit_nicely` do not change. -/
theorem Fits.mono {state after : Threads C} {name : C} {phase : ClientPhase} (fits : Fits state name phase)
    (owner : after.owner = state.owner) (exiting : after.exiting = state.exiting)
    (trace : state.trace ⊆ after.trace) : Fits after name phase := by
  cases phase with
  | idle => trivial
  | received call => trivial
  | holding call => exact ⟨owner.trans fits.1, exiting.trans fits.2⟩
  | ran call => exact ⟨owner.trans fits.1, exiting.trans fits.2.1, trace fits.2.2⟩
  | released call => exact trace fits

omit [DecidableEq C] in
/-- A thread that does not own the lock is not inside the critical section. -/
theorem Fits.outside {state after : Threads C} {name : C} {phase : ClientPhase} (fits : Fits state name phase)
    (outside : state.owner ≠ some (.client name)) (trace : state.trace ⊆ after.trace) :
    Fits after name phase := by
  cases phase with
  | idle => trivial
  | received call => trivial
  | holding call => exact absurd fits.1 outside
  | ran call => exact absurd fits.1 outside
  | released call => exact trace fits

omit [DecidableEq C] in
/-- Once `exit_nicely` has the lock, no thread is inside the critical section. -/
theorem Fits.begun {state after : Threads C} {name : C} {phase : ClientPhase} (fits : Fits state name phase)
    (begun : state.exiting ≠ .waiting) (trace : state.trace ⊆ after.trace) : Fits after name phase := by
  cases phase with
  | idle => trivial
  | received call => trivial
  | holding call => exact absurd fits.2 begun
  | ran call => exact absurd fits.2.1 begun
  | released call => exact trace fits

omit [DecidableEq C] in
/-- The lock is only taken while `exit_nicely` has not begun. -/
theorem Invariant.waiting_of_free {contents : Contents} {state : Threads C} (inv : Invariant contents state)
    (running : state.exiting ≠ .exited) (free : state.owner = none) (notOpen : ¬ Open state) :
    state.exiting = .waiting := by
  have exits := inv.exits
  cases known : state.exiting with
  | waiting => rfl
  | holding =>
      rw [known] at exits
      cases free.symm.trans exits.1
  | closed =>
      rw [known] at exits
      cases free.symm.trans exits.1
  | released => exact absurd (.inl known) notOpen
  | socketClosed => exact absurd (.inr known) notOpen
  | exited => exact absurd known running

theorem Invariant.step {contents : Contents} {state after : Threads C} (inv : Invariant contents state)
    (step : Step state after) (orderly : Orderly state after) : Invariant contents after := by
  obtain ⟨clients, exits, memory, answered⟩ := inv
  cases step with
  | @receive name call running here =>
      refine ⟨clients_move rfl trivial fun other _ => ?_, exits, memory, answered⟩
      exact (clients other).mono rfl rfl (List.Subset.refl _)
  | @enter name call running here free =>
      have notOpen : ¬ Open state := fun isOpen =>
        orderly isOpen name call here (Function.update_self name _ _)
      have waiting := Invariant.waiting_of_free ⟨clients, exits, memory, answered⟩ running free notOpen
      refine ⟨clients_move rfl ⟨rfl, waiting⟩ fun other _ => ?_, ?_, memory, answered⟩
      · refine (clients other).outside ?_ (List.Subset.refl _)
        rw [free]
        exact nofun
      · rw [waiting] at exits
        change ExitFits _ state.exiting
        rw [waiting]
        exact exits
  | @run name call running here =>
      have inside := clients name
      rw [here] at inside
      obtain ⟨owner, waiting⟩ := inside
      have longer : state.trace ⊆ state.trace ++ [.ran name call] := List.subset_append_left _ _
      refine ⟨clients_move rfl ⟨owner, waiting, List.mem_append_right _ (List.mem_singleton_self _)⟩
        fun other _ => (clients other).mono rfl rfl longer, ?_, ?_,
        fun other call known => longer (answered other call known)⟩
      · rw [waiting] at exits
        change ExitFits _ state.exiting
        rw [waiting]
        intro member
        rcases List.mem_append.mp member with earlier | last
        · exact exits earlier
        · cases List.mem_singleton.mp last
      · change call.apply state.memory = _
        rw [replay_concat, memory]
  | @leave name call running here =>
      have inside := clients name
      rw [here] at inside
      obtain ⟨owner, waiting, executed⟩ := inside
      refine ⟨clients_move rfl executed fun other different => ?_, ?_, memory, answered⟩
      · refine (clients other).outside ?_ (List.Subset.refl _)
        rw [owner]
        rintro same
        cases same
        exact different rfl
      · rw [waiting] at exits
        change ExitFits _ state.exiting
        rw [waiting]
        exact exits
  | @reply name call running here =>
      have executed := clients name
      rw [here] at executed
      refine ⟨clients_move rfl trivial fun other _ => ?_, exits, memory, ?_⟩
      · exact (clients other).mono rfl rfl (List.Subset.refl _)
      · intro other earlier known
        rcases List.mem_append.mp known with before | last
        · exact answered other earlier before
        · cases List.mem_singleton.mp last
          exact executed
  | exitEnter here free =>
      refine ⟨fun other => ?_, ?_, memory, answered⟩
      · refine (clients other).outside ?_ (List.Subset.refl _)
        rw [free]
        exact nofun
      · rw [here] at exits
        exact ⟨rfl, exits⟩
  | exitClose here =>
      have begun : state.exiting ≠ .waiting := here ▸ nofun
      rw [here] at exits
      obtain ⟨owner, notClosed⟩ := exits
      have longer : state.trace ⊆ state.trace ++ [.closed] := List.subset_append_left _ _
      refine ⟨fun other => (clients other).begun begun longer,
        ⟨owner, rfl, state.trace, rfl, notClosed⟩, ?_,
        fun other call known => longer (answered other call known)⟩
      change state.memory = _
      rw [replay_concat_closed, memory]
  | exitLeave here =>
      have begun : state.exiting ≠ .waiting := here ▸ nofun
      rw [here] at exits
      exact ⟨fun other => (clients other).begun begun (List.Subset.refl _), exits.2, memory, answered⟩
  | exitSocket here =>
      have begun : state.exiting ≠ .waiting := here ▸ nofun
      rw [here] at exits
      exact ⟨fun other => (clients other).begun begun (List.Subset.refl _), exits, memory, answered⟩
  | exit here =>
      have begun : state.exiting ≠ .waiting := here ▸ nofun
      rw [here] at exits
      exact ⟨fun other => (clients other).begun begun (List.Subset.refl _), exits, memory, answered⟩

omit [DecidableEq C] in
theorem Invariant.start (contents : Contents) : Invariant contents (start contents : Threads C) :=
  ⟨fun _ => trivial, List.not_mem_nil, rfl, nofun⟩

omit [DecidableEq C] in
theorem eq_nil_of_sealed {trace calls before after : List (Action C)}
    (last : trace = calls ++ [.closed]) (once : .closed ∉ calls)
    (split : trace = before ++ .closed :: after) : after = [] := by
  rcases List.eq_nil_or_concat' after with rfl | ⟨front, action, rfl⟩
  · rfl
  · rw [last] at split
    have split' : calls ++ [.closed] = (before ++ .closed :: front) ++ [action] := by
      rw [split, List.append_assoc, List.cons_append]
    obtain ⟨same, -⟩ := List.append_inj' split' rfl
    refine absurd ?_ once
    rw [same]
    exact List.mem_append_right _ List.mem_cons_self

omit [DecidableEq C] in
theorem Invariant.clean {contents : Contents} {state : Threads C} (inv : Invariant contents state) :
    Clean contents state := by
  have exits := inv.exits
  constructor
  · intro before after split
    have member : .closed ∈ state.trace := split ▸ List.mem_append_right _ List.mem_cons_self
    cases known : state.exiting with
    | waiting =>
        rw [known] at exits
        exact absurd member exits
    | holding =>
        rw [known] at exits
        exact absurd member exits.2
    | closed =>
        rw [known] at exits
        obtain ⟨-, -, calls, last, once⟩ := exits
        exact eq_nil_of_sealed last once split
    | released =>
        rw [known] at exits
        obtain ⟨-, calls, last, once⟩ := exits
        exact eq_nil_of_sealed last once split
    | socketClosed =>
        rw [known] at exits
        obtain ⟨-, calls, last, once⟩ := exits
        exact eq_nil_of_sealed last once split
    | exited =>
        rw [known] at exits
        obtain ⟨-, calls, last, once⟩ := exits
        exact eq_nil_of_sealed last once split
  · intro exited
    rw [exited] at exits
    exact ⟨state.memory, exits.1, inv.memory, inv.answered⟩

/-! ## Runs -/

/-- Runs in which every step is orderly. -/
inductive Reaches (state : Threads C) : Threads C → Prop where
  | refl : Reaches state state
  | tail {middle after : Threads C} (earlier : Reaches state middle) (step : Step middle after)
      (orderly : Orderly middle after) : Reaches state after

theorem Reaches.invariant {contents : Contents} {state : Threads C}
    (reached : Reaches (start contents) state) : Invariant contents state := by
  induction reached with
  | refl => exact .start contents
  | tail earlier step orderly ih => exact ih.step step orderly

/--
In a run in which no thread takes the lock after `exit_nicely` has released it, nothing
runs after the engine was closed, and the files left at exit have every acknowledged call.
-/
theorem orderly_shutdown_is_clean {C : Type} [DecidableEq C] (contents : Contents) (state : Threads C)
    (reached : Reaches (start contents) state) : Clean contents state :=
  reached.invariant.clean

/-! ## One client -/

omit [DecidableEq C] in
theorem Orderly.before {state after : Threads C} (notReleased : state.exiting ≠ .released)
    (notClosed : state.exiting ≠ .socketClosed) : Orderly state after := by
  rintro (released | closed)
  · exact absurd released notReleased
  · exact absurd closed notClosed

/-- A database without keys, and one client that sends `set a b`. -/
def oneCall : Call := .set [97] [98]

def received : Threads Unit := (start fun _ => none).move () (.received oneCall)

/-- The call is answered, then the server is shut down. -/
theorem orderly_shutdown_of_one_call : ∃ state : Threads Unit,
    Reaches (start fun _ => none) state ∧ state.exiting = .exited ∧
      state.acknowledged = [((), oneCall)] ∧ Clean (fun _ => none) state := by
  have entered : Reaches (start fun _ => none) received :=
    .tail .refl (.receive oneCall nofun rfl) (.before nofun nofun)
  have inside := Reaches.tail entered (@Step.enter Unit _ _ () oneCall nofun rfl rfl) (.before nofun nofun)
  have ran := inside.tail (@Step.run Unit _ _ () oneCall nofun rfl) (.before nofun nofun)
  have left := ran.tail (@Step.leave Unit _ _ () oneCall nofun rfl) (.before nofun nofun)
  have replied := left.tail (@Step.reply Unit _ _ () oneCall nofun rfl) (.before nofun nofun)
  have exitInside := replied.tail (.exitEnter rfl rfl) (.before nofun nofun)
  have closed := exitInside.tail (.exitClose rfl) (.before nofun nofun)
  have released := closed.tail (.exitLeave rfl) (.before nofun nofun)
  have socket := released.tail (.exitSocket rfl) fun _ name call phase => by cases phase
  have exited := socket.tail (.exit rfl) fun _ name call phase => by cases phase
  exact ⟨_, exited, rfl, rfl, orderly_shutdown_is_clean _ _ exited⟩

/-- The client gets the lock after `exit_nicely` has released it, and is answered before the exit. -/
theorem late_call_is_lost : ∃ state : Threads Unit,
    Relation.ReflTransGen Step (start fun _ => none) state ∧ state.exiting = .exited ∧
      state.acknowledged = [((), oneCall)] ∧ ¬ Clean (fun _ => none) state := by
  have entered : Relation.ReflTransGen Step (start fun _ => none) received :=
    .single (.receive oneCall nofun rfl)
  have exitInside := entered.tail (.exitEnter rfl rfl)
  have closed := exitInside.tail (.exitClose rfl)
  have released := closed.tail (.exitLeave rfl)
  have inside := released.tail (@Step.enter Unit _ _ () oneCall nofun rfl rfl)
  have ran := inside.tail (@Step.run Unit _ _ () oneCall nofun rfl)
  have left := ran.tail (@Step.leave Unit _ _ () oneCall nofun rfl)
  have replied := left.tail (@Step.reply Unit _ _ () oneCall nofun rfl)
  have socket := replied.tail (.exitSocket rfl)
  have exited := socket.tail (.exit rfl)
  refine ⟨_, exited, rfl, rfl, fun clean => ?_⟩
  cases clean.lastIsClose [] [.ran () oneCall] rfl

end Threads

end MyJQL.Server
