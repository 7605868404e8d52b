import MyJQL.Server.Client

/-!
# Driver and server together

One call of the driver and the round of the server that answers it, as steps of the two
parties. Every order of the steps ends as this one does.
-/

namespace MyJQL.Server

open Library Library.Prog

/-! ## A round of the server -/

/-- Nothing arrives on a connection that has ended. -/
theorem run_atEnd {world : World} {α : Type} {program : NetProg α} {wire final : Wire} {value : α}
    (ended : wire.incoming = []) (ran : program.run (netMeaning world) wire = some (value, final)) :
    final.incoming = [] := by
  induction program generalizing wire with
  | pure inner =>
      cases ran
      exact ended
  | fail => cases ran
  | op effect next ih =>
      obtain ⟨⟨result, middle⟩, step, rest⟩ := Option.bind_eq_some_iff.mp ran
      refine ih result ?_ rest
      cases effect with
      | recv buffer count =>
          cases step
          change wire.incoming.drop _ = []
          rw [ended, List.drop_nil]
      | send bytes => cases step; exact ended
      | malloc size => cases step; exact ended
      | myjqlGet key maxSize => cases step; exact ended
      | myjqlSet key value => cases step; exact ended
      | myjqlDel key => cases step; exact ended

/--
A run that leaves a byte unread had every `recv` served in full, so it is also a run on
the queues, without that byte.
-/
theorem run_of_unread {world : World} {α : Type} {program : NetProg α} {stream outgoing outgoing' : List UInt8}
    {calls calls' : List Call} {value : α} {byte : UInt8}
    (ran : program.run (netMeaning world) ⟨stream ++ [byte], [], outgoing, calls⟩ =
      some (value, ⟨[byte], [], outgoing', calls'⟩)) :
    program.run (serverEffects world).meaning (calls, stream, outgoing) =
      some (value, calls', [], outgoing') := by
  induction program generalizing stream outgoing calls with
  | pure inner =>
      obtain ⟨rfl, same⟩ := Prod.mk.inj (Option.some.inj ran)
      injection same with arrived _ sent made
      have none : stream = [] := List.append_left_eq_self.mp arrived
      subst none sent made
      rfl
  | fail => cases ran
  | op effect next ih =>
      obtain ⟨⟨result, middle⟩, step, rest⟩ := Option.bind_eq_some_iff.mp ran
      cases effect with
      | recv buffer count =>
          have received : (Wire.mk (stream ++ [byte]) [] outgoing calls).received count =
              min count (stream.length + 1) := by
            unfold Wire.received
            rw [List.length_append, List.length_singleton]
          cases step
          by_cases enough : count ≤ stream.length
          · have all : min count (stream.length + 1) = count := by omega
            have acted : (serverEffects world).act (.recv buffer count) calls stream =
                some (((count : Int), stream.take count ++ buffer.drop count), calls, count, []) :=
              if_pos enough
            have after : (Wire.mk (stream ++ [byte]) [] outgoing calls).afterRecv count =
                ⟨stream.drop count ++ [byte], [], outgoing, calls⟩ := by
              unfold Wire.afterRecv
              rw [received, all]
              dsimp only
              rw [List.drop_append_of_le_length enough, List.tail_nil, ite_self]
            rw [QueueEffects.run_op acted, List.append_nil]
            refine ih _ ?_
            dsimp only at rest
            rw [received, all, after, List.take_append_of_le_length enough] at rest
            exact rest
          · have ended : ((Wire.mk (stream ++ [byte]) [] outgoing calls).afterRecv count).incoming = [] := by
              change (stream ++ [byte]).drop _ = []
              rw [received]
              apply List.drop_of_length_le
              rw [List.length_append, List.length_singleton]
              omega
            cases run_atEnd ended rest
      | send bytes =>
          cases step
          rw [QueueEffects.run_op rfl, List.drop_zero]
          exact ih _ rest
      | malloc size =>
          cases step
          rw [QueueEffects.run_op rfl, List.drop_zero, List.append_nil]
          exact ih _ rest
      | myjqlGet key maxSize =>
          cases step
          rw [QueueEffects.run_op rfl, List.drop_zero, List.append_nil]
          exact ih _ rest
      | myjqlSet key value =>
          cases step
          rw [QueueEffects.run_op rfl, List.drop_zero, List.append_nil]
          exact ih _ rest
      | myjqlDel key =>
          cases step
          rw [QueueEffects.run_op rfl, List.drop_zero, List.append_nil]
          exact ih _ rest

section Calls

/-- A program of the driver on one connection with the server thread. -/
abbrev Exchange (α : Type) : Type 1 := Duplex (ClientProg α × Unit) (NetProg Outcome × List Call) UInt8

/-- The steps of the driver and of the server thread. -/
abbrev Exchanges {α : Type} (world : World) (memory : Nat → UInt8) (error : Int) : Exchange α → Exchange α → Prop :=
  Duplex.Reaches (clientEffects memory error).party (serverEffects world).party

/-- The steps of the driver and of a server whose engine is a map. -/
abbrev Steps (contents : Contents) (junk : List Call → Nat → UInt8) (memory : Nat → UInt8) (error : Int) :
    Connection → Connection → Prop :=
  Exchanges (mapWorld contents junk) memory error

variable {α : Type} {world : World} {memory : Nat → UInt8} {error : Int} {final : Exchange α}
  {right : NetProg Outcome × List Call} {toRight toLeft : List UInt8} {next : Reply → ClientProg α}

/-- The server reads a request and answers it. -/
theorem steps_round {left : ClientProg α × Unit} (request : Request) {rounds : Nat} {code : Int}
    {calls : List Call} (sendable : request.Sendable)
    (rest : Exchanges world memory error
      ⟨left, (instanceThread rounds (request.codeAfter world calls),
        calls ++ request.call.toList), [], request.answer world calls⟩ final) :
    Exchanges world memory error
      ⟨left, (instanceThread (rounds + 1) code, calls), request.encode, []⟩ final := by
  have round : (serveRequest code).run (netMeaning world)
      ⟨request.encode ++ [0], [], [], calls⟩ = some (.again _, ⟨[0], [], [] ++ _, _⟩) :=
    run_serveRequest sendable rfl (serveFields_nil _)
  exact Duplex.Reaches.right_run (run_of_unread round) rest

theorem steps_sendOr {bytes : List UInt8} {inner : ClientProg Reply}
    (rest : Exchanges world memory error
      ⟨(inner.bind next, ()), right, toRight ++ bytes, toLeft⟩ final) :
    Exchanges world memory error
      ⟨((sendOr bytes inner).bind next, ()), right, toRight, toLeft⟩ final := by
  have proper : ((bytes.length : Nat) : Int) ≠ socketError := by
    simp only [socketError]
    omega
  refine Duplex.Reaches.left_op rfl ?_
  change Exchanges world memory error ⟨(Prog.bind (if ((bytes.length : Nat) : Int) = socketError then
    throwLastError "send" else inner) next, ()), right, toRight ++ bytes, toLeft⟩ final
  rw [if_neg proper]
  exact rest

theorem steps_sendData {data : List UInt8} {inner : ClientProg Reply}
    (rest : Exchanges world memory error
      ⟨(inner.bind next, ()), right, toRight ++ data, toLeft⟩ final) :
    Exchanges world memory error
      ⟨((sendData data data.length inner).bind next, ()), right, toRight, toLeft⟩ final := by
  have proper : ¬ ((data.length : Nat) : Int) < 0 := by omega
  unfold sendData
  rw [if_neg proper, Int.toNat_natCast, List.take_length]
  exact steps_sendOr rest

/-- `recv` of bytes that have arrived. -/
theorem recvFull_append {σ : Type} (buffer bytes rest : List UInt8) (state : σ) :
    recvFull buffer bytes.length state (bytes ++ rest) =
      some (((bytes.length : Int), bytes ++ buffer.drop bytes.length), state, bytes.length, []) := by
  have enough : bytes.length ≤ (bytes ++ rest).length := (List.prefix_append bytes rest).length_le
  rw [recvFull, if_pos enough, List.take_left]

theorem steps_recvOr {code value : Int} {inner : Int → ClientProg Reply} (range : IsInt value)
    (rest : Exchanges world memory error ⟨((inner value).bind next, ()), right, toRight, toLeft⟩ final) :
    Exchanges world memory error
      ⟨((recvOr code inner).bind next, ()), right, toRight, intBytes value ++ toLeft⟩ final := by
  have arrived := recvFull_append (intBytes code) (intBytes value) toLeft ()
  rw [length_intBytes, List.drop_of_length_le (le_of_eq (length_intBytes code)), List.append_nil] at arrived
  refine Duplex.Reaches.left_op arrived ?_
  rw [List.append_nil, List.drop_left' (length_intBytes value)]
  change Exchanges world memory error ⟨(Prog.bind (if ((4 : Nat) : Int) = socketError then
    throwLastError "recv" else inner (intOfBytes (intBytes value))) next, ()), right, toRight, toLeft⟩ final
  rw [if_neg (by decide), intOfBytes_intBytes range]
  exact rest

/-- A reply that is a code alone. -/
theorem steps_reply {code value : Int} {inner : Int → ClientProg Reply} {reply : Reply}
    (range : 0 ≤ value ∧ value ≤ 3) (chosen : inner value = .pure reply)
    (rest : Exchanges world memory error ⟨(next reply, ()), right, toRight, []⟩ final) :
    Exchanges world memory error
      ⟨((recvOr code inner).bind next, ()), right, toRight, intBytes value⟩ final := by
  have isInt : IsInt value := by
    constructor <;> omega
  rw [← List.append_nil (intBytes value)]
  refine steps_recvOr isInt ?_
  rw [chosen]
  exact rest

/-- The `std::string` made of a buffer ends before its first zero byte. -/
theorem takeWhile_terminated {value rest : List UInt8} (room : rest ≠ []) :
    ((value ++ rest).set value.length 0).takeWhile (· ≠ 0) = value.takeWhile (· ≠ 0) := by
  obtain ⟨byte, rest, rfl⟩ := List.exists_cons_of_ne_nil room
  have set : (value ++ byte :: rest).set value.length 0 = value ++ 0 :: rest := by
    rw [List.set_append_right _ _ (Nat.le_refl _), Nat.sub_self, List.set_cons_zero]
  rw [set, List.takeWhile_append]
  split
  · rename_i whole
    rw [List.takeWhile_cons_of_neg (by decide), List.append_nil]
    exact (List.takeWhile_prefix _).eq_of_length whole |>.symm
  · rfl

theorem takeWhile_plain {value : List UInt8} (plain : 0 ∉ value) : value.takeWhile (· ≠ 0) = value := by
  rw [List.takeWhile_eq_self_iff]
  intro byte member
  refine decide_eq_true ?_
  rintro rfl
  exact plain member

/-- A value is returned up to its first zero byte. -/
theorem steps_recvValue {value : List UInt8} (short : value.length ≤ maxStrLen)
    (rest : Exchanges world memory error
      ⟨(next (.value (some (value.takeWhile (· ≠ 0)))), ()), right, toRight, toLeft⟩ final) :
    Exchanges world memory error
      ⟨((recvValue value.length).bind next, ()), right, toRight, value ++ toLeft⟩ final := by
  have defined : ¬ (((value.length : Nat) : Int) < 0 ∨ 2 ^ 31 ≤ ((value.length : Nat) : Int) + 1) := by
    simp only [maxStrLen] at short
    omega
  have proper : ((value.length : Nat) : Int) ≠ socketError := by
    simp only [socketError]
    omega
  unfold recvValue
  rw [if_neg defined]
  refine Duplex.Reaches.left_op rfl ?_
  refine Duplex.Reaches.left_op (recvFull_append _ value toLeft ()) ?_
  have size : (((value.length : Nat) : Int) + 1).toNat = value.length + 1 := by omega
  have room : ((List.range (((value.length : Nat) : Int) + 1).toNat).map memory).drop value.length ≠ [] := by
    rw [← List.length_pos_iff, List.length_drop, List.length_map, List.length_range, size]
    omega
  have spelled : _ = value.takeWhile (· ≠ 0) := takeWhile_terminated room
  rw [List.append_nil, List.append_nil, List.drop_zero, List.drop_left]
  simp only [Prog.bind]
  rw [if_neg proper, if_neg (not_not_intro rfl)]
  rw [← spelled] at rest
  exact rest

theorem intOfSize_eq {size : Nat} (small : size + 1 < 2 ^ 31) : intOfSize size = size :=
  intOfBytes_intBytes (isInt_natCast small)

variable {rounds : Nat} {code : Int} {calls : List Call}

/-- `client::get`, the server's round and the reply. -/
theorem steps_get {key : List UInt8} (sendable : (Request.get key).Sendable)
    (fits : key.length ≤ maxStrLen → ∀ value, world.answer calls key = some value →
      value.length ≤ maxStrLen)
    (rest : Exchanges world memory error
      ⟨(next (if key.length ≤ maxStrLen then
          .value ((world.answer calls key).map (List.takeWhile (· ≠ 0)))
        else .failed .keyTooLong), ()),
        (instanceThread rounds ((Request.get key).codeAfter world calls),
          calls ++ (Request.get key).call.toList), [], []⟩ final) :
    Exchanges world memory error
      ⟨((clientGet key).bind next, ()), (instanceThread (rounds + 1) code, calls), [], []⟩ final := by
  unfold clientGet
  rw [intOfSize_eq sendable]
  refine steps_sendOr (steps_sendOr (steps_sendData ?_))
  rw [List.nil_append, List.append_assoc]
  refine steps_round (.get key) sendable ?_
  simp only [Request.answer]
  by_cases short : key.length ≤ maxStrLen
  · simp only [if_pos short] at rest ⊢
    cases found : world.answer calls key with
    | none =>
        rw [found] at rest
        exact steps_reply (by decide) rfl rest
    | some value =>
        have range : IsInt value.length := by
          have bound := fits short value found
          simp only [maxStrLen] at bound
          constructor <;> omega
        have one : IsInt 1 := by
          constructor <;> decide
        rw [found] at rest
        dsimp only
        rw [List.take_of_length_le (fits short value found)]
        refine steps_recvOr one (steps_recvOr range ?_)
        have ended := steps_recvValue (fits short value found) rest
        rw [List.append_nil] at ended
        exact ended
  · simp only [if_neg short] at rest ⊢
    exact steps_reply (by decide) rfl rest

theorem steps_set {key value : List UInt8}
    (plain : (Call.set key value).Plain (world.answer calls))
    (rest : Exchanges world memory error
      ⟨(next ((Call.set key value).reply (world.answer calls)), ()),
        (instanceThread rounds ((Request.set key value).codeAfter world calls),
          calls ++ (Request.set key value).call.toList), [], []⟩ final) :
    Exchanges world memory error
      ⟨((clientSet key value).bind next, ()), (instanceThread (rounds + 1) code, calls), [], []⟩ final := by
  obtain ⟨⟨keySmall, valueSmall⟩, -⟩ := plain
  unfold clientSet
  rw [intOfSize_eq keySmall, intOfSize_eq valueSmall]
  refine steps_sendOr (steps_sendOr (steps_sendData (steps_sendOr (steps_sendData ?_))))
  rw [List.nil_append, List.append_assoc, List.append_assoc, List.append_assoc]
  refine steps_round (.set key value) ⟨keySmall, valueSmall⟩ ?_
  simp only [Call.reply] at rest
  simp only [Request.answer]
  by_cases keyShort : key.length ≤ maxStrLen
  · simp only [if_pos keyShort] at rest ⊢
    by_cases valueShort : value.length ≤ maxStrLen
    · simp only [if_pos valueShort] at rest ⊢
      exact steps_reply (by decide) rfl rest
    · simp only [if_neg valueShort] at rest ⊢
      exact steps_reply (by decide) rfl rest
  · simp only [if_neg keyShort] at rest ⊢
    exact steps_reply (by decide) rfl rest

theorem steps_del {key : List UInt8} (plain : (Call.del key).Plain (world.answer calls))
    (rest : Exchanges world memory error
      ⟨(next ((Call.del key).reply (world.answer calls)), ()),
        (instanceThread rounds ((Request.del key).codeAfter world calls),
          calls ++ (Request.del key).call.toList), [], []⟩ final) :
    Exchanges world memory error
      ⟨((clientDel key).bind next, ()), (instanceThread (rounds + 1) code, calls), [], []⟩ final := by
  obtain ⟨sendable, -⟩ := plain
  unfold clientDel
  rw [intOfSize_eq sendable]
  refine steps_sendOr (steps_sendOr (steps_sendData ?_))
  rw [List.nil_append, List.append_assoc]
  refine steps_round (.del key) sendable ?_
  simp only [Call.reply] at rest
  simp only [Request.answer]
  by_cases short : key.length ≤ maxStrLen
  · simp only [if_pos short] at rest ⊢
    exact steps_reply (by decide) rfl rest
  · simp only [if_neg short] at rest ⊢
    exact steps_reply (by decide) rfl rest

theorem steps_call (call : Call) (plain : call.Plain (world.answer calls))
    (rest : Exchanges world memory error
      ⟨(next (call.reply (world.answer calls)), ()),
        (instanceThread rounds (call.request.codeAfter world calls),
          calls ++ call.request.call.toList), [], []⟩ final) :
    Exchanges world memory error
      ⟨((clientCall call).bind next, ()), (instanceThread (rounds + 1) code, calls), [], []⟩ final := by
  cases call with
  | get key =>
      obtain ⟨sendable, readable⟩ := plain
      refine steps_get sendable (fun short value found => (readable key value rfl short found).1) ?_
      have same : (if key.length ≤ maxStrLen then
          Reply.value ((world.answer calls key).map (List.takeWhile (· ≠ 0)))
          else .failed .keyTooLong) = (Call.get key).reply (world.answer calls) := by
        simp only [Call.reply]
        split
        · rename_i short
          congr 1
          cases found : world.answer calls key with
          | none => rfl
          | some value => rw [Option.map_some, takeWhile_plain (readable key value rfl short found).2]
        · rfl
      rw [same]
      exact rest
  | set key value => exact steps_set plain rest
  | del key => exact steps_del plain rest

end Calls

/-! ## Sessions -/

section Sessions

variable {contents : Contents} {junk : List Call → Nat → UInt8} {memory : Nat → UInt8} {error : Int}

/-- The contents after a session. -/
def contentsAfter (contents : Contents) : List Call → Contents
  | [] => contents
  | call :: rest => contentsAfter (call.after contents) rest

/-- A session, call by call; `next` is what the driver does with the replies. -/
theorem steps_session {rounds : Nat} (session : List Call) (next : List Reply → ClientProg (List Reply))
    (code : Int) (calls : List Call) (plain : PlainSession (calls.foldl Call.apply contents) session) :
    ∃ code' calls',
      calls'.foldl Call.apply contents = contentsAfter (calls.foldl Call.apply contents) session ∧
      Steps contents junk memory error
        ⟨((clientSession session).bind next, ()),
          (instanceThread (session.length + rounds) code, calls), [], []⟩
        ⟨(next (replies (calls.foldl Call.apply contents) session), ()),
          (instanceThread rounds code', calls'), [], []⟩ := by
  induction session generalizing next code calls with
  | nil =>
      refine ⟨code, calls, rfl, ?_⟩
      rw [List.length_nil, Nat.zero_add]
      exact .refl
  | cons call rest ih =>
      have count : (call :: rest).length + rounds = rest.length + rounds + 1 := by
        rw [List.length_cons]
        omega
      have made : call.after (calls.foldl Call.apply contents) =
          (calls ++ call.request.call.toList).foldl Call.apply contents := by
        rw [List.foldl_append]
        rfl
      obtain ⟨callPlain, restPlain⟩ := plain
      rw [made] at restPlain
      obtain ⟨code', calls', ended, steps⟩ := ih
        (fun later => next (call.reply (calls.foldl Call.apply contents) :: later))
        (call.request.codeAfter (mapWorld contents junk) calls) _ restPlain
      refine ⟨code', calls', ?_, ?_⟩
      · rw [ended, contentsAfter, made]
      · rw [count, clientSession, Prog.bind_assoc, replies, made]
        refine steps_call call callPlain ?_
        rw [Prog.bind_assoc]
        exact steps

/-- A server that waits for a request, with a driver that has finished, makes no step. -/
theorem not_step_waiting {results : List Reply} {rounds : Nat} {code : Int} {calls : List Call}
    (after : Connection) :
    ¬ Duplex.Step (clientEffects memory error).party (serverEffects (mapWorld contents junk)).party
      ⟨(.pure results, ()), (instanceThread (rounds + 1) code, calls), [], []⟩ after := by
  intro step
  cases step with
  | left step => cases step
  | right step => cases step

/-- A finished driver, nothing under way, and the server waiting for a request. -/
def finished (results : List Reply) (rounds : Nat) (code : Int) (calls : List Call) : Connection :=
  ⟨(.pure results, ()), (instanceThread (rounds + 1) code, calls), [], []⟩

/--
In every order of the steps of the driver and the server, no state is reached from which
the session does not end with the replies that the calls are to have, the contents they
are to leave, nothing under way and the server waiting for a request.
-/
def SessionAgrees (contents : Contents) (junk : List Call → Nat → UInt8) (memory : Nat → UInt8)
    (error : Int) (session : List Call) (code : Int) (rounds : Nat) : Prop :=
  ∃ code' calls', calls'.foldl Call.apply contents = contentsAfter contents session ∧
    (∀ after, ¬ Duplex.Step (clientEffects memory error).party (serverEffects (mapWorld contents junk)).party
      (finished (replies contents session) rounds code' calls') after) ∧
    ∀ reached, Steps contents junk memory error
        ⟨(clientSession session, ()), (instanceThread (session.length + (rounds + 1)) code, []), [], []⟩
        reached →
      Steps contents junk memory error reached (finished (replies contents session) rounds code' calls')

theorem plain_session_agrees (contents : Contents) (junk : List Call → Nat → UInt8) (memory : Nat → UInt8)
    (error : Int) (session : List Call) (plain : PlainSession contents session) (code : Int) (rounds : Nat) :
    SessionAgrees contents junk memory error session code rounds := by
  obtain ⟨code', calls', ended, steps⟩ := steps_session session .pure code [] plain
  rw [Prog.bind_pure] at steps
  exact ⟨code', calls', ended, not_step_waiting, fun reached => steps.of_final not_step_waiting⟩

/-- A value set and read back. -/
theorem plain_session_agrees_set_get :
    SessionAgrees (fun _ => none) (fun _ _ => 0) (fun _ => 0) 0 [.set [97] [98], .get [97]] 0 0 := by
  refine plain_session_agrees _ _ _ _ _ ?_ 0 0
  refine ⟨⟨⟨by decide, by decide⟩, nofun⟩, ⟨(by decide : 1 + 1 < 2 ^ 31), ?_⟩, trivial⟩
  intro key value same short found
  cases same
  cases found
  exact ⟨by decide, by decide⟩

/-- A stored value that is one zero byte. -/
def zeroByte : Contents := fun _ => some [0]

/-- The driver returns the empty string where the value is one zero byte. -/
theorem zero_byte_session_differs :
    ¬ SessionAgrees zeroByte (fun _ _ => 0) (fun _ => 0) 0 [.get [97]] 0 0 := by
  rintro ⟨code', calls', -, -, agrees⟩
  have small : (Request.get [97]).Sendable := (by decide : 1 + 1 < 2 ^ 31)
  have wrong : Steps zeroByte (fun _ _ => 0) (fun _ => 0) 0
      ⟨(clientSession [.get [97]], ()), (instanceThread 2 0, []), [], []⟩
      (finished [.value (some [])] 0 1 [.get [97]]) := by
    refine steps_get small ?_ .refl
    intro short value found
    cases found
    decide
  rcases Relation.ReflTransGen.cases_head (agrees _ wrong) with same | ⟨next, step, -⟩
  · have results := congrArg (fun state => state.left.1) same
    cases results
  · exact not_step_waiting next step

end Sessions

end MyJQL.Server
