import MyJQL.Library.Duplex
import MyJQL.Server.WireSpec

/-!
# The driver (`myjqlclient.cpp`)

`client::get`, `client::set` and `client::del` send a request and wait for the reply.
They reuse one variable `code` for the request code, the lengths and the reply, as the
server does. A value that was found is turned into a `std::string` up to its first zero
byte.
-/

namespace MyJQL.Server

open Library Library.Prog

/-! ## The program -/

inductive SocketOp : Type → Type where
  | send (bytes : List UInt8) : SocketOp Int
  | recv (buffer : List UInt8) (count : Nat) : SocketOp (Int × List UInt8)
  | malloc (size : Nat) : SocketOp (List UInt8)
  | wsaGetLastError : SocketOp Int

/-- The exceptions of the driver. -/
inductive Failure where
  | systemError (what : String) (code : Int)
  | keyTooLong
  | valueTooLong
  deriving DecidableEq, Repr

/-- How a call of the driver ends. -/
inductive Reply where
  | value (found : Option (List UInt8))
  | done
  | failed (failure : Failure)
  deriving DecidableEq, Repr

abbrev ClientProg (α : Type) := Prog SocketOp α

/-- `throw system_error{what, WSAGetLastError()}`. -/
def throwLastError (what : String) : ClientProg Reply := do
  let error ← perform .wsaGetLastError
  return .failed (.systemError what error)

/-- `(int)size`. -/
def intOfSize (size : Nat) : Int := intOfBytes (intBytes size)

/-- `send`, and what follows unless it fails. -/
def sendOr (bytes : List UInt8) (next : ClientProg Reply) : ClientProg Reply := do
  let iResult ← perform (.send bytes)
  if iResult = socketError then throwLastError "send"
  else next

/-- `send` of the first `code` bytes of a string; a negative count is undefined behaviour. -/
def sendData (data : List UInt8) (code : Int) (next : ClientProg Reply) : ClientProg Reply :=
  if code < 0 then .fail else sendOr (data.take code.toNat) next

/-- `recv` of `code`, and what follows unless it fails. -/
def recvOr (code : Int) (next : Int → ClientProg Reply) : ClientProg Reply := do
  let (iResult, bytes) ← perform (.recv (intBytes code) 4)
  if iResult = socketError then throwLastError "recv"
  else next (intOfBytes bytes)

/-- The value that follows the reply 1. -/
def recvValue (code : Int) : ClientProg Reply := do
  if code < 0 ∨ 2 ^ 31 ≤ code + 1 then .fail
  else
    let buf ← perform (.malloc (code + 1).toNat)
    let (iResult, buf) ← perform (.recv buf code.toNat)
    if iResult = socketError then throwLastError "recv"
    else if iResult ≠ code then return .failed (.systemError "incomplete response" 0)
    else return .value (some ((buf.set code.toNat 0).takeWhile (· ≠ 0)))

/-- `client::get`. -/
def clientGet (key : List UInt8) : ClientProg Reply :=
  let code := intOfSize key.length
  sendOr (intBytes 0) <| sendOr (intBytes code) <| sendData key code <| recvOr code fun code =>
    if code = 0 then return .value none
    else if code = 1 then recvOr code recvValue
    else if code = 2 then return .failed .keyTooLong
    else return .failed (.systemError "unknown return code" code)

/-- `client::set`. -/
def clientSet (key value : List UInt8) : ClientProg Reply :=
  let keyLen := intOfSize key.length
  let valueLen := intOfSize value.length
  sendOr (intBytes 1) <| sendOr (intBytes keyLen) <| sendData key keyLen <|
    sendOr (intBytes valueLen) <| sendData value valueLen <| recvOr valueLen fun code =>
      if code = 1 then return .done
      else if code = 2 then return .failed .keyTooLong
      else if code = 3 then return .failed .valueTooLong
      else return .failed (.systemError "unknown return code" code)

/-- `client::del`. -/
def clientDel (key : List UInt8) : ClientProg Reply :=
  let code := intOfSize key.length
  sendOr (intBytes 2) <| sendOr (intBytes code) <| sendData key code <| recvOr code fun code =>
    if code = 1 then return .done
    else if code = 2 then return .failed .keyTooLong
    else return .failed (.systemError "unknown return code" code)

def clientCall : Call → ClientProg Reply
  | .get key => clientGet key
  | .set key value => clientSet key value
  | .del key => clientDel key

/-- Calls one after another on one connection. -/
def clientSession : List Call → ClientProg (List Reply)
  | [] => .pure []
  | call :: rest => (clientCall call).bind fun reply =>
      (clientSession rest).bind fun replies => .pure (reply :: replies)

/-- `client::~client`; `shutdown` and `closesocket` come last and send nothing. -/
def clientClose : ClientProg Unit := do
  let iResult ← perform (.send (intBytes 3))
  if iResult = socketError then return
  let _ ← perform (.recv (intBytes 3) 4)

/-! ## The connection -/

/-- `recv` waits for all the bytes it asks for; asked for none, it is taken to return at once. -/
def recvFull {σ : Type} (buffer : List UInt8) (count : Nat) (state : σ) (inbox : List UInt8) :
    Option ((Int × List UInt8) × σ × Nat × List UInt8) :=
  if count ≤ inbox.length then
    some ((count, inbox.take count ++ buffer.drop count), state, count, [])
  else none

theorem recvFull_front {σ : Type} {buffer : List UInt8} {count : Nat} {state state' : σ}
    {inbox : List UInt8} {result : Int × List UInt8} {taken : Nat} {sent : List UInt8}
    (acted : recvFull buffer count state inbox = some (result, state', taken, sent)) :
    taken ≤ inbox.length ∧
      ∀ more, recvFull buffer count state (inbox ++ more) = some (result, state', taken, sent) := by
  unfold recvFull at acted
  split at acted
  · rename_i enough
    cases acted
    refine ⟨enough, fun more => ?_⟩
    have longer : count ≤ (inbox ++ more).length := by
      rw [List.length_append]
      exact Nat.le_add_right_of_le enough
    rw [recvFull, if_pos longer, List.take_append_of_le_length enough]
  · cases acted

/-- The effects of the driver. -/
def clientAct (junk : Nat → UInt8) (error : Int) : {β : Type} → SocketOp β → Unit → List UInt8 →
    Option (β × Unit × Nat × List UInt8)
  | _, .send bytes, _, _ => some ((bytes.length : Int), (), 0, bytes)
  | _, .recv buffer count, _, inbox => recvFull buffer count () inbox
  | _, .malloc size, _, _ => some ((List.range size).map junk, (), 0, [])
  | _, .wsaGetLastError, _, _ => some (error, (), 0, [])

def clientEffects (junk : Nat → UInt8) (error : Int) : QueueEffects SocketOp Unit UInt8 where
  act := clientAct junk error
  front := by
    intro β effect state inbox result state' taken sent acted
    cases effect with
    | recv buffer count => exact recvFull_front acted
    | send bytes => cases acted; exact ⟨Nat.zero_le _, fun _ => rfl⟩
    | malloc size => cases acted; exact ⟨Nat.zero_le _, fun _ => rfl⟩
    | wsaGetLastError => cases acted; exact ⟨Nat.zero_le _, fun _ => rfl⟩

/-- The effects of the server thread, which keeps the calls it has made. -/
def serverAct (world : World) : {β : Type} → NetOp β → List Call → List UInt8 →
    Option (β × List Call × Nat × List UInt8)
  | _, .send bytes, calls, _ => some ((bytes.length : Int), calls, 0, bytes)
  | _, .recv buffer count, calls, inbox => recvFull buffer count calls inbox
  | _, .malloc size, calls, _ => some ((List.range size).map (world.junk calls), calls, 0, [])
  | _, .myjqlGet key maxSize, calls, _ =>
      some ((world.answer calls key).map (List.take maxSize), calls ++ [.get key], 0, [])
  | _, .myjqlSet key value, calls, _ => some ((), calls ++ [.set key value], 0, [])
  | _, .myjqlDel key, calls, _ => some ((), calls ++ [.del key], 0, [])

def serverEffects (world : World) : QueueEffects NetOp (List Call) UInt8 where
  act := serverAct world
  front := by
    intro β effect state inbox result state' taken sent acted
    cases effect with
    | recv buffer count => exact recvFull_front acted
    | send bytes => cases acted; exact ⟨Nat.zero_le _, fun _ => rfl⟩
    | malloc size => cases acted; exact ⟨Nat.zero_le _, fun _ => rfl⟩
    | myjqlGet key maxSize => cases acted; exact ⟨Nat.zero_le _, fun _ => rfl⟩
    | myjqlSet key value => cases acted; exact ⟨Nat.zero_le _, fun _ => rfl⟩
    | myjqlDel key => cases acted; exact ⟨Nat.zero_le _, fun _ => rfl⟩

/-- The driver, the server thread and the bytes under way. -/
abbrev Connection :=
  Duplex (ClientProg (List Reply) × Unit) (NetProg Outcome × List Call) UInt8

/-- An engine that is a map from keys to values. -/
def mapWorld (contents : Contents) (junk : List Call → Nat → UInt8) : World :=
  ⟨fun calls => calls.foldl Call.apply contents, junk⟩

/-! ## What the calls are for -/

namespace Call

def request : Call → Request
  | .get key => .get key
  | .set key value => .set key value
  | .del key => .del key

/-- The reply that a call is to have. -/
def reply (contents : Contents) : Call → Reply
  | .get key => if key.length ≤ maxStrLen then .value (contents key) else .failed .keyTooLong
  | .set key value =>
      if key.length ≤ maxStrLen then
        if value.length ≤ maxStrLen then .done else .failed .valueTooLong
      else .failed .keyTooLong
  | .del key => if key.length ≤ maxStrLen then .done else .failed .keyTooLong

/-- The contents after a call; a refused call does not change them. -/
def after (contents : Contents) (call : Call) : Contents :=
  call.request.call.toList.foldl Call.apply contents

/-- Lengths that the driver can send, and a value that it can return. -/
def Plain (contents : Contents) (call : Call) : Prop :=
  call.request.Sendable ∧ ∀ key value, call = .get key → key.length ≤ maxStrLen →
    contents key = some value → value.length ≤ maxStrLen ∧ 0 ∉ value

end Call

/-- The replies to calls, one after another. -/
def replies (contents : Contents) : List Call → List Reply
  | [] => []
  | call :: rest => call.reply contents :: replies (call.after contents) rest

/-- Every call of a session is plain when it is made. -/
def PlainSession (contents : Contents) : List Call → Prop
  | [] => True
  | call :: rest => call.Plain contents ∧ PlainSession (call.after contents) rest

end MyJQL.Server
