import MyJQL.Library.Contract
import MyJQL.Library.Cost
import MyJQL.Server.ClientSpec

/-!
# Programs that use the driver

A program makes calls of the driver and has effects of its own between them. Linked with the
driver it is one party of a connection, and the server thread is the other: whatever the
program is told, the two of them do what the program does when each call is one step.
-/

namespace MyJQL.System

open Library Library.Prog Server

/-- The calls of the driver. -/
inductive DriverOp : Type → Type where
  | call (call : Call) : DriverOp Reply

/-- Programs with effects of their own, beside the calls of the driver. -/
abbrev UserProg (L : Type → Type) (α : Type) := Prog (SumOp L DriverOp) α

/-- A program on a connection with the server thread, beside its own state. -/
abbrev Process (L : Type → Type) (ρ α : Type) : Type 1 :=
  Duplex (Prog (SumOp L SocketOp) α × ρ × Unit) (NetProg Outcome × List Call) UInt8

section Programs

variable {L : Type → Type} {ρ α β : Type}

/-- A call is what the driver does for it. -/
def linked : ∀ β : Type, SumOp L DriverOp β → Prog (SumOp L SocketOp) β
  | _, .left effect => perform (.left effect)
  | _, .right (.call call) => onRight (clientCall call)

/-- The program, and the destructor of its client at the end. -/
def process (program : UserProg L α) : Prog (SumOp L SocketOp) α :=
  (program.interp linked).bind fun value => (onRight clientClose).bind fun _ => .pure value

/-- The program when each call takes one step; the calls that reach the engine are kept. -/
def userMeaning (own : Meaning L ρ) (world : World) : Meaning (SumOp L DriverOp) (ρ × List Call)
  | _, .left effect, (owned, calls) => (own _ effect owned).map fun (result, after) => (result, (after, calls))
  | _, .right (.call call), (owned, calls) =>
      some (call.reply (world.answer calls), (owned, calls ++ call.request.call.toList))

/-- A call counts for one. -/
def callWeight : ∀ β : Type, SumOp L DriverOp β → Nat
  | _, .left _ => 0
  | _, .right _ => 1

end Programs

/--
Keys and values that can be sent, and that the engine stores as they are. None is empty: for an
empty one the thread asks the socket for 0 bytes, which a connection without data lets wait.
-/
def Proper : Call → Prop
  | .get key => key ≠ [] ∧ key.length + 1 < 2 ^ 31
  | .set key value => (key ≠ [] ∧ key.length + 1 < 2 ^ 31) ∧ value ≠ [] ∧ value.length + 1 < 2 ^ 31 ∧ 0 ∉ value
  | .del key => key ≠ [] ∧ key.length + 1 < 2 ^ 31

instance : DecidablePred Proper
  | .get _ => inferInstanceAs (Decidable (_ ∧ _))
  | .set _ _ => inferInstanceAs (Decidable (_ ∧ _))
  | .del _ => inferInstanceAs (Decidable (_ ∧ _))

/-- A program makes proper calls, whatever it is told. -/
def properCalls {L : Type → Type} : Contract (SumOp L DriverOp) where
  asked
    | _, .left _ => True
    | _, .right (.call call) => Proper call
  expected _ _ _ := True

/-- A value that a connection carries unchanged. -/
def PlainValue (value : List UInt8) : Prop := value.length ≤ maxStrLen ∧ 0 ∉ value

/-- Every value that the engine answers with is plain. -/
def PlainWorld (world : World) : Prop :=
  ∀ calls key value, world.answer calls key = some value → PlainValue value

theorem Proper.plain {call : Call} {world : World} {calls : List Call} (proper : Proper call) (plain : PlainWorld world) :
    call.Plain (world.answer calls) := by
  refine ⟨?_, fun key value _ _ found => plain calls key value found⟩
  cases call with
  | get key => exact proper.2
  | set key value => exact ⟨proper.1.2, proper.2.2.1⟩
  | del key => exact proper.2

/-! ## The steps of a call -/

section Steps

variable {L : Type → Type} {ρ α : Type} {own : Meaning L ρ} {world : World} {memory : Nat → UInt8} {error : Int}
  {owned : ρ} {calls : List Call} {code : Int} {rounds : Nat}

/-- The steps of a program and of the server thread. -/
abbrev Proceeds (own : Meaning L ρ) (world : World) (memory : Nat → UInt8) (error : Int) :
    Process L ρ α → Process L ρ α → Prop :=
  Duplex.Reaches (QueueEffects.beside own (clientEffects memory error)).party (serverEffects world).party

/-- A call of the driver, inside a program. -/
theorem proceeds_call (call : Call) (next : Reply → Prog (SumOp L SocketOp) α) (plain : call.Plain (world.answer calls)) :
    ∃ code', Proceeds own world memory error
      ⟨((onRight (clientCall call)).bind next, (owned, ())), (instanceThread (rounds + 1) code, calls), [], []⟩
      ⟨(next (call.reply (world.answer calls)), (owned, ())),
        (instanceThread rounds code', calls ++ call.request.call.toList), [], []⟩ := by
  have alone : Exchanges world memory error
      ⟨((clientCall call).bind .pure, ()), (instanceThread (rounds + 1) code, calls), [], []⟩
      ⟨(.pure (call.reply (world.answer calls)), ()),
        (instanceThread rounds (call.request.codeAfter world calls), calls ++ call.request.call.toList), [], []⟩ :=
    steps_call call plain .refl
  rw [bind_pure] at alone
  exact ⟨_, alone.inside next owned⟩

/-- The server answers the exit code and leaves its loop. -/
theorem run_exit : (serveRequest code).run (serverEffects world).meaning (calls, intBytes 3, []) =
    some (.exits, calls, [], intBytes 1) := by
  have range : IsInt 3 := by
    constructor <;> decide
  have exits : (serveRequest code).run (netMeaning world) ⟨intBytes 3 ++ [0], [], [], calls⟩ =
      some (.exits, ⟨[0], [], [] ++ intBytes 1, calls⟩) := by
    unfold serveRequest
    rw [run_recvCode_full range rfl (serveFields_nil _)]
    rfl
  exact run_of_unread exits

/-- The destructor of the client, inside a program. -/
theorem proceeds_close (next : Unit → Prog (SumOp L SocketOp) α) :
    Proceeds own world memory error
      ⟨((onRight clientClose).bind next, (owned, ())), (instanceThread (rounds + 1) code, calls), [], []⟩
      ⟨(next (), (owned, ())), (.pure .exits, calls), [], []⟩ := by
  have proper : ((4 : Nat) : Int) ≠ socketError := by decide
  have alone : Exchanges world memory error
      ⟨(clientClose.bind .pure, ()), (instanceThread (rounds + 1) code, calls), [], []⟩
      ⟨(.pure (), ()), (.pure .exits, calls), [], []⟩ := by
    refine Duplex.Reaches.left_op rfl ?_
    refine Duplex.Reaches.right_run run_exit ?_
    refine Duplex.Reaches.left_op (recvFull_append (intBytes 3) (intBytes 1) [] ()) ?_
    exact .refl
  rw [bind_pure] at alone
  exact alone.inside next owned

/--
A program and the server thread do what the program does when each call is one step, and the
thread has rounds left for calls that the program did not make.
-/
theorem proceeds_program {program : UserProg L α} {bound : Nat} {value : α} {owned' : ρ} {calls' : List Call} {γ : Type}
    (next : α → Prog (SumOp L SocketOp) γ) (plain : PlainWorld world)
    (proper : program.Meets properCalls fun _ => True) (few : program.Within callWeight bound)
    (ran : program.run (userMeaning own world) (owned, calls) = some (value, (owned', calls'))) :
    ∃ left code', Proceeds own world memory error
      ⟨((program.interp linked).bind next, (owned, ())), (instanceThread (bound + rounds) code, calls), [], []⟩
      ⟨(next value, (owned', ())), (instanceThread (left + rounds) code', calls'), [], []⟩ := by
  induction program generalizing bound owned calls code with
  | pure inner =>
      cases ran
      exact ⟨bound, code, .refl⟩
  | fail => cases ran
  | op effect inner ih =>
      obtain ⟨⟨result, middle, made⟩, step, later⟩ := Option.bind_eq_some_iff.mp ran
      obtain ⟨rest, cost, fewer⟩ := few
      cases effect with
      | left effect =>
          obtain ⟨⟨answer, after⟩, stepped, same⟩ := Option.map_eq_some_iff.mp step
          cases same
          obtain ⟨left, code', steps⟩ := @ih result middle calls code bound (proper.2 _ trivial)
            ((fewer _).mono ((Nat.zero_add rest) ▸ cost)) later
          have acted : (QueueEffects.beside own (clientEffects memory error)).act (.left effect) (owned, ()) [] =
              some (result, (middle, ()), 0, []) := by
            simp only [QueueEffects.beside, stepped, Option.map_some]
          exact ⟨left, code', Duplex.Reaches.left_op acted steps⟩
      | right effect =>
          obtain ⟨call⟩ := effect
          cases step
          obtain ⟨bound, rfl⟩ := Nat.exists_eq_add_of_le' ((Nat.le_add_right 1 rest).trans cost)
          obtain ⟨code1, first⟩ := @proceeds_call L ρ γ own world memory error owned calls code (bound + rounds) call
            (fun reply => ((inner reply).interp linked).bind next) (proper.1.plain plain)
          obtain ⟨left, code', steps⟩ := ih _ (proper.2 _ trivial)
            ((fewer _).mono (Nat.le_of_succ_le_succ ((Nat.add_comm 1 rest) ▸ cost))) later
          refine ⟨left, code', .trans ?_ steps⟩
          rw [interp, Prog.bind_assoc, Nat.add_right_comm]
          exact first

end Steps

end MyJQL.System
