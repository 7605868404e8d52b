import MyJQL.Server.WireSpec

/-!
# Streams of requests

The loop over a list of complete requests, and what it does when the stream ends. At
the end `recv` returns 0 and leaves `code` as it was, so the loop goes on with the reply
code or the value length of the last request as if it were a request code.
-/

namespace MyJQL.Server

open Library Library.Prog

variable {world : World} {wire wire' : Wire} {code : Int} {calls : List Call}

/-! ## Runs that end -/

theorem run_instanceThread_again {rounds : Nat} {code' : Int}
    (round : (serveRequest code).run (netMeaning world) wire = some (.again code', wire')) :
    (instanceThread (rounds + 1) code).run (netMeaning world) wire =
      (instanceThread rounds code').run (netMeaning world) wire' := by
  rw [instanceThread, run_bind, round]
  rfl

/-- Calls are only added. -/
theorem calls_grow {α : Type} {program : NetProg α} {value : α}
    (ran : program.run (netMeaning world) wire = some (value, wire')) : wire.calls <+: wire'.calls := by
  induction program generalizing wire with
  | pure inner =>
      cases ran
      exact List.prefix_rfl
  | fail => cases ran
  | op effect next ih =>
      obtain ⟨⟨result, middle⟩, step, rest⟩ := Option.bind_eq_some_iff.mp ran
      refine List.IsPrefix.trans ?_ (ih result rest)
      cases effect with
      | recv buffer count => cases step; exact List.prefix_rfl
      | send bytes => cases step; exact List.prefix_rfl
      | malloc size => cases step; exact List.prefix_rfl
      | myjqlGet key maxSize => cases step; exact List.prefix_append _ _
      | myjqlSet key value => cases step; exact List.prefix_append _ _
      | myjqlDel key => cases step; exact List.prefix_append _ _

/-- The loop ends, having made these calls in all. -/
def EndsWith (world : World) (code : Int) (wire : Wire) (calls : List Call) : Prop :=
  ∃ rounds result final, (instanceThread rounds code).run (netMeaning world) wire = some (result, final) ∧
    final.calls = calls

/-- The rest of a round, and the rounds after it, end having made these calls in all. -/
def Continues (world : World) (program : NetProg Outcome) (wire : Wire) (calls : List Call) : Prop :=
  ∃ outcome final, program.run (netMeaning world) wire = some (outcome, final) ∧
    match outcome with
    | .again code => EndsWith world code final calls
    | _ => final.calls = calls

theorem endsWith_iff : EndsWith world code wire calls ↔ Continues world (serveRequest code) wire calls := by
  constructor
  · rintro ⟨rounds, result, final, ran, made⟩
    cases rounds with
    | zero => cases ran
    | succ rounds =>
        rw [instanceThread, run_bind] at ran
        obtain ⟨⟨outcome, middle⟩, round, rest⟩ := Option.bind_eq_some_iff.mp ran
        refine ⟨outcome, middle, round, ?_⟩
        cases outcome with
        | again code' => exact ⟨rounds, result, final, rest, made⟩
        | exits =>
            cases rest
            exact made
        | failed =>
            cases rest
            exact made
  · rintro ⟨outcome, middle, round, ended⟩
    cases outcome with
    | again code' =>
        obtain ⟨rounds, result, final, ran, made⟩ := ended
        exact ⟨rounds + 1, result, final, (run_instanceThread_again round).trans ran, made⟩
    | exits =>
        refine ⟨1, .exits, middle, ?_, ended⟩
        rw [instanceThread, run_bind, round]
        rfl
    | failed =>
        refine ⟨1, .failed, middle, ?_, ended⟩
        rw [instanceThread, run_bind, round]
        rfl

theorem Continues.congr {first second : NetProg Outcome}
    (same : first.run (netMeaning world) wire = second.run (netMeaning world) wire') :
    Continues world first wire calls ↔ Continues world second wire' calls := by
  unfold Continues
  rw [same]

theorem EndsWith.calls_grow (ended : EndsWith world code wire calls) : wire.calls <+: calls := by
  obtain ⟨rounds, result, final, ran, rfl⟩ := ended
  exact Server.calls_grow ran

theorem Continues.calls_grow {program : NetProg Outcome} (ended : Continues world program wire calls) :
    wire.calls <+: calls := by
  obtain ⟨outcome, final, ran, made⟩ := ended
  refine (Server.calls_grow ran).trans ?_
  cases outcome with
  | again code => exact EndsWith.calls_grow made
  | exits => exact made ▸ List.prefix_rfl
  | failed => exact made ▸ List.prefix_rfl

/-- Once a call too many has been made, the calls are not as expected. -/
theorem not_continues_of_call {program : NetProg Outcome} {call : Call}
    (extra : wire.calls = calls ++ [call]) : ¬ Continues world program wire calls := by
  intro ended
  have bound := ended.calls_grow.length_le
  rw [extra, List.length_append, List.length_singleton] at bound
  omega

/-! ## Many requests -/

/-- The value of `code` after a list of requests. -/
def codeAfterAll (world : World) : List Call → Int → List Request → Int
  | _, code, [] => code
  | calls, _, request :: rest =>
      codeAfterAll world (calls ++ request.call.toList) (request.codeAfter world calls) rest

theorem endsWith_again {code' : Int}
    (round : (serveRequest code).run (netMeaning world) wire = some (.again code', wire')) :
    EndsWith world code wire calls ↔ EndsWith world code' wire' calls := by
  rw [endsWith_iff]
  constructor
  · rintro ⟨outcome, final, ran, ended⟩
    rw [round] at ran
    cases ran
    exact ended
  · exact fun ended => ⟨_, _, round, ended⟩

/-- The loop reads off a list of complete requests. -/
theorem endsWith_requests {requests : List Request} (sendable : ∀ request ∈ requests, request.Sendable)
    {rest : List UInt8} {cuts cuts' : List Nat}
    (fields : serveFields cuts (requests.flatMap Request.fields) = some cuts') (outgoing : List UInt8)
    (before : List Call) (code : Int) : ∃ outgoing',
      EndsWith world code ⟨requests.flatMap Request.encode ++ rest, cuts, outgoing, before⟩ calls ↔
        EndsWith world (codeAfterAll world before code requests)
          ⟨rest, cuts', outgoing', before ++ requests.filterMap Request.call⟩ calls := by
  induction requests generalizing cuts outgoing before code with
  | nil =>
      cases fields
      refine ⟨outgoing, ?_⟩
      rw [List.filterMap_nil, List.append_nil]
      rfl
  | cons request requests ih =>
      obtain ⟨middle, here, later⟩ := serveFields_append fields
      obtain ⟨outgoing', step⟩ := ih (fun other member => sendable other (List.mem_cons_of_mem _ member))
        later (outgoing ++ request.answer world before) (before ++ request.call.toList)
        (request.codeAfter world before)
      refine ⟨outgoing', ?_⟩
      have round : (serveRequest code).run (netMeaning world)
          ⟨(request :: requests).flatMap Request.encode ++ rest, cuts, outgoing, before⟩ =
          some (.again (request.codeAfter world before), ⟨requests.flatMap Request.encode ++ rest, middle,
            outgoing ++ request.answer world before, before ++ request.call.toList⟩) := by
        refine run_serveRequest (sendable request List.mem_cons_self) ?_ here
        rw [List.flatMap_cons, List.append_assoc]
      have made : before ++ (request :: requests).filterMap Request.call =
          before ++ request.call.toList ++ requests.filterMap Request.call := by
        rw [List.append_assoc]
        congr 1
        cases asked : request.call with
        | none => rw [List.filterMap_cons_none asked, Option.toList_none, List.nil_append]
        | some call => rw [List.filterMap_cons_some asked, Option.toList_some, List.singleton_append]
      rw [endsWith_again round, step, made]
      rfl

/-- The exit code ends the loop. -/
theorem endsWith_exit {rest : List UInt8} {cuts' : List Nat} (arrived : wire.incoming = intBytes 3 ++ rest)
    (served : serveFields wire.cuts [4] = some cuts') :
    EndsWith world code wire calls ↔ wire.calls = calls := by
  have isInt : IsInt 3 := by
    constructor <;> decide
  have round : (serveRequest code).run (netMeaning world) wire =
      some (.exits, ⟨rest, cuts', wire.outgoing ++ intBytes 1, wire.calls⟩) := by
    rw [serveRequest, run_recvCode_full isInt arrived served]
    unfold dispatch
    rw [if_neg (by decide), if_neg (by decide), if_neg (by decide), if_pos rfl, run_sendBytes, run_pure]
  rw [endsWith_iff]
  constructor
  · rintro ⟨outcome, final, ran, ended⟩
    rw [round] at ran
    cases ran
    exact ended
  · exact fun made => ⟨_, _, round, made⟩

/-! ## Segmentation -/

/-- An engine without keys, and memory that is zero. -/
def emptyWorld : World := ⟨fun _ _ => none, fun _ _ => 0⟩

/-- Requests followed by the exit code. -/
def session (requests : List Request) : List UInt8 := requests.flatMap Request.encode ++ intBytes 3

/-- The loop ends with the calls it makes when every `recv` returns in full. -/
def DecodesAlike (world : World) (code : Int) (stream : List UInt8) (cuts : List Nat) : Prop :=
  ∃ calls, EndsWith world code ⟨stream, cuts, [], []⟩ calls ∧ EndsWith world code ⟨stream, [], [], []⟩ calls

theorem endsWith_session {requests : List Request} (sendable : ∀ request ∈ requests, request.Sendable)
    {cuts cuts' : List Nat}
    (served : serveFields cuts (requests.flatMap Request.fields ++ [4]) = some cuts') :
    EndsWith world code ⟨session requests, cuts, [], []⟩ calls ↔ requests.filterMap Request.call = calls := by
  obtain ⟨middle, first, exit⟩ := serveFields_append served
  obtain ⟨outgoing, read⟩ := endsWith_requests sendable first [] [] code
  unfold session
  rw [read, endsWith_exit (List.append_nil _).symm exit, List.nil_append]

/-- A stream none of whose fields is cut decodes as it was sent. -/
theorem uncut_fields_decode_alike (world : World) (code : Int) (requests : List Request)
    (sendable : ∀ request ∈ requests, request.Sendable) (cuts : List Nat)
    (uncut : serveFields cuts (requests.flatMap Request.fields ++ [4]) ≠ none) :
    DecodesAlike world code (session requests) cuts ∧
      EndsWith world code ⟨session requests, cuts, [], []⟩ (requests.filterMap Request.call) := by
  obtain ⟨cuts', served⟩ := Option.ne_none_iff_exists'.mp uncut
  have ended : EndsWith world code ⟨session requests, cuts, [], []⟩ (requests.filterMap Request.call) :=
    (endsWith_session sendable served).mpr rfl
  exact ⟨⟨_, ended, (endsWith_session sendable (serveFields_nil _)).mpr rfl⟩, ended⟩

/-- Entries of `cuts` that are large enough for every field. -/
theorem uncut_fields_decode_alike_get :
    DecodesAlike emptyWorld 0 (session [.get [97, 98]]) [4, 7] ∧
      EndsWith emptyWorld 0 ⟨session [.get [97, 98]], [4, 7], [], []⟩ [.get [97, 98]] := by
  refine uncut_fields_decode_alike emptyWorld 0 _ ?_ [4, 7] (by decide)
  intro request member
  rw [List.mem_singleton] at member
  subst member
  exact (by decide : 2 + 1 < 2 ^ 31)

/-- A key of which only four bytes come with the first `recv`; the others are read as the exit code. -/
def cutKey : List UInt8 := [1, 1, 1, 1, 3, 0, 0, 0]

theorem cut_key_decodes_otherwise : ¬ DecodesAlike emptyWorld 0 (session [.get cutKey]) [4, 4, 4] := by
  rintro ⟨calls, cut, full⟩
  have sendable : ∀ request ∈ [Request.get cutKey], request.Sendable := by
    intro request member
    rw [List.mem_singleton] at member
    subst member
    exact (by decide : 8 + 1 < 2 ^ 31)
  have sent := (endsWith_session sendable (serveFields_nil _)).mp full
  have round : (serveRequest 0).run (netMeaning emptyWorld) ⟨session [.get cutKey], [4, 4, 4], [], []⟩ =
      some (.again 0, ⟨[3, 0, 0, 0, 3, 0, 0, 0], [], [0, 0, 0, 0], [.get [1, 1, 1, 1, 0, 0, 0, 0]]⟩) := by
    rfl
  have made := (endsWith_exit rfl (serveFields_nil _)).mp ((endsWith_again round).mp cut)
  rw [← made] at sent
  revert sent
  decide

/-! ## The end of the stream -/

/-- Nothing is left to receive. -/
def Wire.AtEnd (wire : Wire) : Prop := wire.incoming = [] ∧ wire.cuts = []

theorem Wire.AtEnd.received (atEnd : wire.AtEnd) (count : Nat) : wire.received count = 0 := by
  unfold Wire.received
  rw [atEnd.1]
  exact Nat.min_zero _

theorem Wire.AtEnd.afterRecv (atEnd : wire.AtEnd) (count : Nat) : wire.afterRecv count = wire := by
  obtain ⟨incoming, cuts, outgoing, calls⟩ := wire
  obtain ⟨rfl, rfl⟩ := atEnd
  simp [Wire.afterRecv]

/-- At the end `recv` leaves `code` as it was. -/
theorem run_recvCode_atEnd (atEnd : wire.AtEnd) (range : IsInt code) (next : Int → NetProg Outcome) :
    (recvCode code next).run (netMeaning world) wire = (next code).run (netMeaning world) wire := by
  rw [run_recvCode, atEnd.received, atEnd.afterRecv, List.take_zero, List.drop_zero, List.nil_append,
    intOfBytes_intBytes range]

theorem continues_reply_iff {value : Int} : Continues world (reply value) wire calls ↔
    EndsWith world value { wire with outgoing := wire.outgoing ++ intBytes value } calls := by
  constructor
  · rintro ⟨outcome, final, ran, ended⟩
    rw [run_reply] at ran
    cases ran
    exact ended
  · intro ended
    exact ⟨_, _, run_reply value, ended⟩

/-- A call made by the rest of a round is one too many. -/
theorem not_continues_perform {α : Type} {effect : NetOp α} {next : α → NetProg Outcome} {result : α}
    {call : Call} (step : netMeaning world _ effect wire = some (result, wire'))
    (extra : wire'.calls = wire.calls ++ [call]) :
    ¬ Continues world (perform effect >>= next) wire wire.calls := by
  have same : (perform effect >>= next).run (netMeaning world) wire =
      (next result).run (netMeaning world) wire' := by
    rw [run_bind, run_perform, step]
    rfl
  rw [Continues.congr same]
  exact not_continues_of_call extra

theorem not_continues_answerGet {length : Nat} {key : List UInt8} (short : length ≤ maxStrLen) :
    ¬ Continues world (answerGet length key) wire wire.calls := by
  have fits : ¬ ((length : Int) > maxStrLen) := by omega
  unfold answerGet
  rw [if_neg fits]
  exact not_continues_perform rfl rfl

theorem not_continues_answerDel {length : Nat} {key : List UInt8} (short : length ≤ maxStrLen) :
    ¬ Continues world (answerDel length key) wire wire.calls := by
  have fits : ¬ ((length : Int) > maxStrLen) := by omega
  unfold answerDel
  rw [if_neg fits]
  exact not_continues_perform rfl rfl

theorem not_continues_answerSet {keyLen valueLen : Nat} {key value : List UInt8}
    (keyShort : keyLen ≤ maxStrLen) (valueShort : valueLen ≤ maxStrLen) :
    ¬ Continues world (answerSet keyLen key valueLen value) wire wire.calls := by
  have keyFits : ¬ ((keyLen : Int) > maxStrLen) := by omega
  have valueFits : ¬ ((valueLen : Int) > maxStrLen) := by omega
  unfold answerSet
  rw [if_neg keyFits, if_neg valueFits]
  exact not_continues_perform rfl rfl

/-- At the end of the stream a code that is no request code is tried for ever. -/
theorem not_endsWith_unknown (atEnd : wire.AtEnd) (range : IsInt code)
    (unknown : code ≠ 0 ∧ code ≠ 1 ∧ code ≠ 2 ∧ code ≠ 3) : ¬ EndsWith world code wire calls := by
  rintro ⟨rounds, result, final, ran, -⟩
  have round : (serveRequest code).run (netMeaning world) wire = some (.again code, wire) := by
    obtain ⟨notGet, notSet, notDel, notExit⟩ := unknown
    rw [serveRequest, run_recvCode_atEnd atEnd range, dispatch, if_neg notGet, if_neg notSet,
      if_neg notDel, if_neg notExit, run_pure]
  induction rounds with
  | zero => cases ran
  | succ rounds ih =>
      rw [run_instanceThread_again round] at ran
      exact ih ran

@[simp]
theorem Wire.afterRecv_calls (wire : Wire) (count : Nat) : (wire.afterRecv count).calls = wire.calls := rfl

/-- Receiving a buffer makes no call. -/
theorem not_continues_recvBuffer {length : Nat} {next : List UInt8 → NetProg Outcome}
    (none : ∀ buffer, ¬ Continues world (next buffer) (wire.afterRecv length) calls) :
    ¬ Continues world (recvBuffer length next) wire calls := by
  by_cases small : length + 1 < 2 ^ 31
  · rw [Continues.congr (run_recvBuffer small next)]
    exact none _
  · have undefined : (length : Int) < 0 ∨ 2 ^ 31 ≤ (length : Int) + 1 := by omega
    rintro ⟨outcome, final, ran, -⟩
    rw [recvBuffer, if_pos undefined] at ran
    cases ran

/--
At the end of the stream the loop ends without a further call exactly when `code` is
the exit code.
-/
theorem continues_dispatch_atEnd (atEnd : wire.AtEnd) (range : IsInt code) :
    Continues world (dispatch code) wire wire.calls ↔ code = 3 := by
  unfold dispatch
  by_cases isGet : code = 0
  · refine iff_of_false ?_ (by omega)
    have length : code = ((0 : Nat) : Int) := isGet
    rw [if_pos isGet, serveGet, Continues.congr (run_recvCode_atEnd atEnd range _), length]
    exact not_continues_recvBuffer fun key => not_continues_answerGet (Nat.zero_le _)
  rw [if_neg isGet]
  by_cases isSet : code = 1
  · refine iff_of_false ?_ (by omega)
    have length : code = ((1 : Nat) : Int) := isSet
    rw [if_pos isSet, serveSet, Continues.congr (run_recvCode_atEnd atEnd range _), length]
    refine not_continues_recvBuffer fun key => ?_
    rw [atEnd.afterRecv, Continues.congr (run_recvCode_atEnd atEnd (length ▸ range) _)]
    exact not_continues_recvBuffer fun value => not_continues_answerSet (by decide) (by decide)
  rw [if_neg isSet]
  by_cases isDel : code = 2
  · refine iff_of_false ?_ (by omega)
    have length : code = ((2 : Nat) : Int) := isDel
    rw [if_pos isDel, serveDel, Continues.congr (run_recvCode_atEnd atEnd range _), length]
    exact not_continues_recvBuffer fun key => not_continues_answerDel (by decide)
  rw [if_neg isDel]
  by_cases isExit : code = 3
  · rw [if_pos isExit]
    refine iff_of_true ⟨.exits, { wire with outgoing := wire.outgoing ++ intBytes 1 }, ?_, rfl⟩ isExit
    rw [run_sendBytes, run_pure]
  · rw [if_neg isExit]
    refine iff_of_false ?_ isExit
    rintro ⟨outcome, final, ran, ended⟩
    rw [run_pure] at ran
    cases ran
    exact not_endsWith_unknown atEnd range ⟨isGet, isSet, isDel, isExit⟩ ended

theorem endsWith_atEnd (atEnd : wire.AtEnd) (range : IsInt code) :
    EndsWith world code wire wire.calls ↔ code = 3 := by
  rw [endsWith_iff, serveRequest, Continues.congr (run_recvCode_atEnd atEnd range _)]
  exact continues_dispatch_atEnd atEnd range

theorem continues_reply_atEnd {value : Int} (atEnd : wire.AtEnd) (range : IsInt value) :
    Continues world (reply value) wire wire.calls ↔ value = 3 := by
  have later : Wire.AtEnd { wire with outgoing := wire.outgoing ++ intBytes value } := atEnd
  rw [continues_reply_iff]
  exact endsWith_atEnd later range

/-! ## A request that breaks off -/

/-- The `int` that `recv` leaves in `code` when the stream has only `part` left. -/
def assembled (code : Int) (part : List UInt8) : Int :=
  intOfBytes (part.take 4 ++ (intBytes code).drop (part.take 4).length)

theorem run_recvCode_uncut (uncut : wire.cuts = []) (next : Int → NetProg Outcome) :
    (recvCode code next).run (netMeaning world) wire =
      (next (assembled code wire.incoming)).run (netMeaning world)
        { wire with incoming := wire.incoming.drop 4 } := by
  obtain ⟨incoming, cuts, outgoing, calls⟩ := wire
  dsimp only at uncut
  subst uncut
  have received : (Wire.mk incoming [] outgoing calls).received 4 = (incoming.take 4).length := by
    rw [List.length_take]
    rfl
  have rest : incoming.drop (incoming.take 4).length = incoming.drop 4 := by
    rw [List.length_take, ← List.drop_eq_drop_min]
  have arrived : incoming.take (incoming.take 4).length = incoming.take 4 := by
    rw [List.length_take, ← List.take_eq_take_min]
  rw [run_recvCode, received, Wire.afterRecv, received]
  dsimp only
  rw [rest, arrived]
  rfl

end MyJQL.Server
