import MyJQL.Engine.EngineRuns
import MyJQL.Library.CriticalSection
import MyJQL.System.Driver

/-!
# Many clients

Every client is a process with a connection of its own, and every connection has a server
thread. The threads make their calls of the engine inside `CriticalSection`, effect by effect of
the engine (an operation on a page of `bp_idx`, or a call of a table), while everybody else
moves. All that any client sees is one history of the engine, in which the calls stand in the
order in which the threads left the critical section.
-/

namespace MyJQL.System

open Library Library.Prog Server Engine

/-! ## The engine as the threads use it -/

/-- A call of the engine by a server thread. -/
inductive EngineCall where
  | get (key : List UInt8) (maxSize : Nat)
  | set (key value : List UInt8)
  | del (key : List UInt8)

namespace EngineCall

/-- The call inside the critical section; `value_len = (int)myjql_get(..)` is -1 for a key that is not found. -/
def body : EngineCall → EngineProg (Option (List UInt8))
  | .get key maxSize => do
      let (count, value) ← myjqlGet key maxSize
      let valueLen := intOfSize count
      return if valueLen = -1 then none else some (value.take valueLen.toNat)
  | .set key value => do
      myjqlSet key value
      return none
  | .del key => do
      myjqlDel key
      return none

/-- The call as the server thread records it. -/
def toCall : EngineCall → Call
  | .get key _ => .get key
  | .set key value => .set key value
  | .del key => .del key

/-- What a map from keys to values answers, and the map after the call. -/
def spec : EngineCall → Contents → Option (List UInt8) × Contents
  | .get key maxSize, contents => ((contents key).map (List.take maxSize), contents)
  | .set key value, contents => (none, Function.update contents key (some value))
  | .del key, contents => (none, Function.update contents key none)

end EngineCall

/-- Keys and values that the engine stores, and that a connection carries unchanged. -/
def Good : Call → Prop
  | .set key value => (key ≠ [] ∧ key.length ≤ maxStrLen) ∧ value ≠ [] ∧ PlainValue value
  | _ => True

/-- Every value is plain. -/
def PlainContents (contents : Contents) : Prop := ∀ key value, contents key = some value → PlainValue value

/-- An answer without a value, or with a plain one. -/
def PlainAnswer (answer : Option (List UInt8)) : Prop := ∀ value, answer = some value → PlainValue value

section Engine

variable {contents : Contents} {maps : EngineMaps} {call : EngineCall}

theorem PlainContents.update {key : List UInt8} {found : Option (List UInt8)} (plain : PlainContents contents)
    (new : PlainAnswer found) : PlainContents (Function.update contents key found) := by
  intro other value bound
  by_cases same : other = key
  · subst same
    rw [Function.update_self] at bound
    exact new value bound
  · rw [Function.update_of_ne same] at bound
    exact plain other value bound

theorem PlainContents.after (plain : PlainContents contents) (good : Good call.toCall) :
    PlainContents (call.spec contents).2 := by
  cases call with
  | get key maxSize => exact plain
  | set key value =>
      refine plain.update ?_
      rintro other ⟨⟩
      exact good.2.2
  | del key => exact plain.update nofun

theorem PlainContents.answer (plain : PlainContents contents) : PlainAnswer (call.spec contents).1 := by
  cases call with
  | get key maxSize =>
      intro value found
      obtain ⟨whole, bound, rfl⟩ := Option.map_eq_some_iff.mp found
      obtain ⟨short, noZero⟩ := plain key whole bound
      exact ⟨(List.length_take_le' ..).trans short, fun member => noZero (List.mem_of_mem_take member)⟩
  | set key value => exact nofun
  | del key => exact nofun

/-- Only `get` is answered, with no more bytes than were asked for. -/
def Fitting : EngineCall → Option (List UInt8) → Prop
  | .get _ maxSize, answer => answer.map (List.take maxSize) = answer
  | _, answer => answer = none

theorem fitting_spec (call : EngineCall) (contents : Contents) : Fitting call (call.spec contents).1 := by
  cases call with
  | get key maxSize =>
      change ((contents key).map (List.take maxSize)).map (List.take maxSize) = (contents key).map (List.take maxSize)
      cases contents key with
      | none => rfl
      | some value => exact congrArg some (by rw [List.take_take, Nat.min_self])
  | set key value => rfl
  | del key => rfl

/-- The engine answers as the map that its files hold. -/
theorem run_body (holds : FilesHold contents maps) (plain : PlainContents contents) (good : Good call.toCall) :
    ∃ after, call.body.run engineMeaning maps = some ((call.spec contents).1, after) ∧
      FilesHold (call.spec contents).2 after := by
  cases call with
  | get key maxSize =>
      obtain ⟨after, ran, holds'⟩ := run_myjqlGet holds key maxSize
      refine ⟨after, ?_, holds'⟩
      rw [EngineCall.body, run_bind, ran, Option.bind_some]
      cases found : contents key with
      | none =>
          have missing : intOfSize noSize = -1 := by decide
          simp only [Engine.reply, missing, if_true, run_pure, EngineCall.spec, found, Option.map_none]
      | some value =>
          have short : min value.length maxSize + 1 < 2 ^ 31 := by
            have bound := (plain key value found).1
            simp only [maxStrLen] at bound
            omega
          have size := intOfSize_eq short
          have found' : ((min value.length maxSize : Nat) : Int) ≠ -1 := by omega
          simp only [Engine.reply, size, if_neg found', Int.toNat_natCast, take_loaded, run_pure, EngineCall.spec, found,
            Option.map_some]
  | set key value =>
      obtain ⟨⟨someKey, keyShort⟩, someValue, valueShort, -⟩ := good
      have keyBounds : 1 ≤ key.length ∧ key.length ≤ 655360 :=
        ⟨List.length_pos_iff.mpr someKey, keyShort.trans (by decide)⟩
      have valueBounds : 1 ≤ value.length ∧ value.length ≤ 655360 :=
        ⟨List.length_pos_iff.mpr someValue, valueShort.trans (by decide)⟩
      obtain ⟨after, ran, holds'⟩ := run_myjqlSet holds keyBounds valueBounds
      refine ⟨after, ?_, holds'⟩
      rw [EngineCall.body, run_bind, ran]
      rfl
  | del key =>
      obtain ⟨after, ran, holds'⟩ := run_myjqlDel holds key
      refine ⟨after, ?_, holds'⟩
      rw [EngineCall.body, run_bind, ran]
      rfl

end Engine

/-! ## Clients -/

/--
A client: its program, what it starts with, how many calls it makes at most, how often its
thread could go round beyond them, and what memory is to contain.
-/
structure User (L : Type → Type) (ρ α : Type) where
  program : UserProg L α
  owned : ρ
  bound : Nat
  spare : Nat
  memory : Nat → UInt8
  error : Int
  junk : List Call → Nat → UInt8
  code : Int

section Clients

variable {L : Type → Type} {ρ α : Type}

/-- The call of the engine that a server thread is about to make. -/
def asks (state : Process L ρ α) : Option (EngineCall × (Option (List UInt8) → Process L ρ α)) :=
  match state.right with
  | (.op (.myjqlGet key maxSize) next, calls) =>
      some (.get key maxSize, fun answer => { state with right := (next answer, calls ++ [.get key]) })
  | (.op (.myjqlSet key value) next, calls) =>
      some (.set key value, fun _ => { state with right := (next (), calls ++ [.set key value]) })
  | (.op (.myjqlDel key) next, calls) =>
      some (.del key, fun _ => { state with right := (next (), calls ++ [.del key]) })
  | _ => none

/-- An engine that is never asked. -/
def silentWorld (junk : List Call → Nat → UInt8) : World := ⟨fun _ _ => none, junk⟩

/-- The steps outside the critical section: of the client, and of its server thread while it asks for no call. -/
inductive Moves (own : Meaning L ρ) (user : User L ρ α) : Process L ρ α → Process L ρ α → Prop where
  | client {state : Process L ρ α} {after : Prog (SumOp L SocketOp) α × ρ × Unit} {taken : Nat} {sent : List UInt8}
      (step : (QueueEffects.beside own (clientEffects user.memory user.error)).party.step state.left state.toLeft =
        some (after, taken, sent)) :
      Moves own user state ⟨after, state.right, state.toRight ++ sent, state.toLeft.drop taken⟩
  | server {state : Process L ρ α} {after : NetProg Outcome × List Call} {taken : Nat} {sent : List UInt8}
      (silent : asks state = none)
      (step : (serverEffects (silentWorld user.junk)).party.step state.right state.toRight = some (after, taken, sent)) :
      Moves own user state ⟨state.left, after, state.toRight.drop taken, state.toLeft ++ sent⟩

theorem asks_client {state : Process L ρ α} {call : EngineCall} {next : Option (List UInt8) → Process L ρ α}
    (asked : asks state = some (call, next)) (left : Prog (SumOp L SocketOp) α × ρ × Unit) (toRight toLeft : List UInt8) :
    ∃ next', asks ⟨left, state.right, toRight, toLeft⟩ = some (call, next') := by
  obtain ⟨left', right, toRight', toLeft'⟩ := state
  obtain ⟨program, calls⟩ := right
  cases program with
  | pure value => cases asked
  | fail => cases asked
  | op effect rest =>
      cases effect with
      | recv buffer count => cases asked
      | send bytes => cases asked
      | malloc size => cases asked
      | myjqlGet key maxSize => cases asked; exact ⟨_, rfl⟩
      | myjqlSet key value => cases asked; exact ⟨_, rfl⟩
      | myjqlDel key => cases asked; exact ⟨_, rfl⟩

/-- A client and its server thread. -/
def User.thread (own : Meaning L ρ) (user : User L ρ α) : Thread (Process L ρ α) EngineCall (Option (List UInt8)) where
  move := Moves own user
  asks := asks
  keeps := by
    intro state after call next moved asked
    cases moved with
    | client step => exact asks_client asked _ _ _
    | server silent step =>
        rw [silent] at asked
        cases asked

/-- The client before its first call, and its thread before the first request. -/
def User.start (user : User L ρ α) : Process L ρ α :=
  ⟨(process user.program, (user.owned, ())), (instanceThread (user.bound + (user.spare + 1)) user.code, []), [], []⟩

/-- An engine whose answers have been recorded. -/
def recorded (answers : List (Option (List UInt8))) (junk : List Call → Nat → UInt8) : World :=
  ⟨fun calls _ => (answers[calls.length]?).getD none, junk⟩

/-- What a client sees when the engine answers it so: its result, what it owns then and the calls it has made. -/
def User.view (own : Meaning L ρ) (user : User L ρ α) (answers : List (Option (List UInt8))) :
    Option (α × ρ × List Call) :=
  user.program.run (userMeaning own (recorded answers user.junk)) (user.owned, [])

/-- A client that makes proper calls, no more than its bound, and is defined whatever it is told. -/
structure User.Sound (own : Meaning L ρ) (user : User L ρ α) : Prop where
  proper : user.program.Meets properCalls fun _ => True
  few : user.program.Within callWeight user.bound
  defined : ∀ answers, user.view own answers ≠ none

end Clients

/-! ## One client with recorded answers -/

section Alone

variable {L : Type → Type} {ρ α : Type} {own : Meaning L ρ} {user : User L ρ α} {state after : Process L ρ α}
  {answers : List (Option (List UInt8))} {call : EngineCall} {next : Option (List UInt8) → Process L ρ α}

/-- The steps of a client and its server thread, with recorded answers. -/
abbrev Follows (own : Meaning L ρ) (user : User L ρ α) (answers : List (Option (List UInt8))) :
    Process L ρ α → Process L ρ α → Prop :=
  Proceeds own (recorded answers user.junk) user.memory user.error

/-- One step of a client or its server thread, with recorded answers. -/
abbrev FollowsOnce (own : Meaning L ρ) (user : User L ρ α) (answers : List (Option (List UInt8))) :
    Process L ρ α → Process L ρ α → Prop :=
  Duplex.Step (QueueEffects.beside own (clientEffects user.memory user.error)).party
    (serverEffects (recorded answers user.junk)).party

/-- What a recorded engine answers. -/
def answered (answers : List (Option (List UInt8))) (calls : List Call) : EngineCall → Option (List UInt8)
  | .get _ maxSize => ((answers[calls.length]?).getD none).map (List.take maxSize)
  | _ => none

theorem answered_eq {calls : List Call} {answer : Option (List UInt8)} (fitting : Fitting call answer)
    (here : answers[calls.length]? = some answer) : answered answers calls call = answer := by
  cases call with
  | get key maxSize =>
      rw [answered, here]
      exact fitting
  | set key value => exact fitting.symm
  | del key => exact fitting.symm

/-- A step of the server thread is one whatever the engine answers, or it is a call of the engine. -/
theorem server_step {world : World} {right : NetProg Outcome × List Call} {taken : Nat} {sent : List UInt8}
    (step : (serverEffects world).party.step state.right state.toRight = some (right, taken, sent)) :
    (asks state = none ∧ right.2 = state.right.2 ∧ ∀ other : World, other.junk = world.junk →
      (serverEffects other).party.step state.right state.toRight = some (right, taken, sent)) ∨
        ∃ call next, asks state = some (call, next) := by
  obtain ⟨left, ⟨program, calls⟩, toRight, toLeft⟩ := state
  cases program with
  | pure value => cases step
  | fail => cases step
  | op effect rest =>
      obtain ⟨⟨result, middle, count, out⟩, acted, same⟩ := Option.map_eq_some_iff.mp step
      cases same
      cases effect with
      | recv buffer count =>
          refine .inl ⟨rfl, ?_, fun other _ => step⟩
          simp only [serverEffects, serverAct, recvFull] at acted
          split at acted
          · cases acted
            rfl
          · cases acted
      | send bytes =>
          cases acted
          exact .inl ⟨rfl, rfl, fun other _ => rfl⟩
      | malloc size =>
          cases acted
          refine .inl ⟨rfl, rfl, fun other same => ?_⟩
          simp only [QueueEffects.party, QueueEffects.step, serverEffects, serverAct, same, Option.map_some]
      | myjqlGet key maxSize => exact .inr ⟨_, _, rfl⟩
      | myjqlSet key value => exact .inr ⟨_, _, rfl⟩
      | myjqlDel key => exact .inr ⟨_, _, rfl⟩

/-- A call of the engine takes nothing from the connection, and the thread records it. -/
theorem asked_step (asked : asks state = some (call, next)) (answers : List (Option (List UInt8)))
    (junk : List Call → Nat → UInt8) :
    (serverEffects (recorded answers junk)).party.step state.right state.toRight =
        some ((next (answered answers state.right.2 call)).right, 0, []) ∧
      ∀ answer, next answer = { state with right := (next answer).right } ∧
        (next answer).right.2 = state.right.2 ++ [call.toCall] := by
  obtain ⟨left, ⟨program, calls⟩, toRight, toLeft⟩ := state
  cases program with
  | pure value => cases asked
  | fail => cases asked
  | op effect rest =>
      cases effect with
      | recv buffer count => cases asked
      | send bytes => cases asked
      | malloc size => cases asked
      | myjqlGet key maxSize =>
          cases asked
          exact ⟨rfl, fun _ => ⟨rfl, rfl⟩⟩
      | myjqlSet key value =>
          cases asked
          exact ⟨rfl, fun _ => ⟨rfl, rfl⟩⟩
      | myjqlDel key =>
          cases asked
          exact ⟨rfl, fun _ => ⟨rfl, rfl⟩⟩

theorem Moves.once (moved : Moves own user state after) : FollowsOnce own user answers state after := by
  cases moved with
  | client step => exact .left step
  | server silent step =>
      rcases server_step step with ⟨-, -, others⟩ | ⟨call, next, asked⟩
      · exact .right (others _ rfl)
      · rw [silent] at asked
        cases asked

theorem Moves.calls (moved : Moves own user state after) : after.right.2 = state.right.2 := by
  cases moved with
  | client step => rfl
  | server silent step =>
      rcases server_step step with ⟨-, same, -⟩ | ⟨call, next, asked⟩
      · exact same
      · rw [silent] at asked
        cases asked

/-- A step with recorded answers is a step outside the critical section, or the thread asks for a call. -/
theorem FollowsOnce.cases (step : FollowsOnce own user answers state after) :
    Moves own user state after ∨ ∃ call next, asks state = some (call, next) := by
  cases step with
  | left step => exact .inl (.client step)
  | right step =>
      rcases server_step step with ⟨silent, -, others⟩ | asked
      · exact .inl (.server silent (others _ rfl))
      · exact .inr asked

/-- A call of the engine is a step with the recorded answer. -/
theorem followsOnce_asked (asked : asks state = some (call, next)) (answers : List (Option (List UInt8))) :
    FollowsOnce own user answers state (next (answered answers state.right.2 call)) := by
  obtain ⟨step, same⟩ := asked_step asked answers user.junk
  have stepped : FollowsOnce own user answers state ⟨state.left, _, state.toRight.drop 0, state.toLeft ++ []⟩ := .right step
  rw [List.drop_zero, List.append_nil] at stepped
  rw [(same _).1]
  exact stepped

/-- Calls are added to those that were made. -/
theorem Follows.calls (follows : Follows own user answers state after) : state.right.2 <+: after.right.2 := by
  induction follows with
  | refl => exact List.prefix_refl _
  | @tail middle last _ step ih =>
      refine ih.trans ?_
      cases step with
      | left step => exact List.prefix_refl _
      | right step =>
          rcases server_step step with ⟨-, same, -⟩ | ⟨call, next, asked⟩
          · exact same ▸ List.prefix_refl _
          · obtain ⟨stepped, made⟩ := asked_step asked answers user.junk
            rw [stepped] at step
            cases step
            rw [(made _).2]
            exact List.prefix_append _ _

end Alone

end MyJQL.System
