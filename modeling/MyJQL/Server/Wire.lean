import MyJQL.Library.Program

/-!
# The server thread (`myjqlserver.c`)

`InstanceThread` reads requests from a socket and answers them. The variable `code`
holds the request code, then a length, then the reply code; the loop returns to its
first `recv` with whatever was left in it.

An `int` is a signed 32-bit number, sent as four bytes, the least significant first.
`recv` overwrites as many bytes of its buffer as it returns; memory from `malloc` has
arbitrary content. A length that is negative, or whose successor is not an `int`, is
undefined behaviour. The engine's answer to a `get` may depend on all calls before it.
The thread's sends are taken to succeed, as they do to a client that has only closed its
sending half.
-/

namespace MyJQL.Server

open Library Library.Prog

/-- `MAX_STR_LEN`. -/
abbrev maxStrLen : Nat := 1024

/-! ## Integers on the wire -/

/-- The four bytes of an `int`. -/
def intBytes (value : Int) : List UInt8 :=
  (List.range 4).map fun index => UInt8.ofNat ((value % 2 ^ 32).toNat / 256 ^ index)

/-- The unsigned number that bytes spell. -/
def natOfBytes : List UInt8 → Nat
  | [] => 0
  | byte :: rest => byte.toNat + 256 * natOfBytes rest

/-- The `int` that four bytes spell. -/
def intOfBytes (bytes : List UInt8) : Int :=
  if natOfBytes bytes < 2 ^ 31 then natOfBytes bytes else natOfBytes bytes - 2 ^ 32

/-- The range of `int`. -/
def IsInt (value : Int) : Prop := -2 ^ 31 ≤ value ∧ value < 2 ^ 31

/-! ## The program -/

inductive NetOp : Type → Type where
  | recv (buffer : List UInt8) (count : Nat) : NetOp (Int × List UInt8)
  | send (bytes : List UInt8) : NetOp Int
  | malloc (size : Nat) : NetOp (List UInt8)
  | myjqlGet (key : List UInt8) (maxSize : Nat) : NetOp (Option (List UInt8))
  | myjqlSet (key value : List UInt8) : NetOp Unit
  | myjqlDel (key : List UInt8) : NetOp Unit

abbrev NetProg (α : Type) := Prog NetOp α

/-- How one round of the loop ends: with another round, at `break`, or at `return 1`. -/
inductive Outcome where
  | again (code : Int)
  | exits
  | failed
  deriving DecidableEq, Repr

/-- `SOCKET_ERROR`. -/
abbrev socketError : Int := -1

/-- `recv` of `code`, and what follows unless it fails. -/
def recvCode (code : Int) (next : Int → NetProg Outcome) : NetProg Outcome := do
  let (iResult, bytes) ← perform (.recv (intBytes code) 4)
  if iResult = socketError then return .failed
  next (intOfBytes bytes)

/-- `malloc(code + 1)`, `recv` of `code` bytes into it, and what follows unless that fails. -/
def recvBuffer (code : Int) (next : List UInt8 → NetProg Outcome) : NetProg Outcome := do
  if code < 0 ∨ 2 ^ 31 ≤ code + 1 then .fail
  else
    let buffer ← perform (.malloc (code + 1).toNat)
    let (iResult, filled) ← perform (.recv buffer code.toNat)
    if iResult = socketError then return .failed
    next (filled.take code.toNat)

/-- `send`, and what follows unless it fails. -/
def sendBytes (bytes : List UInt8) (next : NetProg Outcome) : NetProg Outcome := do
  let iResult ← perform (.send bytes)
  if iResult = socketError then return .failed
  next

/-- `code = value`, sent as the reply that ends the round. -/
def reply (value : Int) : NetProg Outcome := sendBytes (intBytes value) (return .again value)

/-- The part of `get` after its key has been received. -/
def answerGet (code : Int) (key : List UInt8) : NetProg Outcome := do
  if code > maxStrLen then reply 2
  else
    match ← perform (.myjqlGet key maxStrLen) with
    | none => reply 0
    | some value =>
        sendBytes (intBytes 1) <| sendBytes (intBytes value.length) <|
          sendBytes value (return .again value.length)

/-- The part of `set` after its key and its value have been received. -/
def answerSet (keyLen : Int) (key : List UInt8) (valueLen : Int) (value : List UInt8) :
    NetProg Outcome := do
  if keyLen > maxStrLen then reply 2
  else if valueLen > maxStrLen then reply 3
  else
    perform (.myjqlSet key value)
    reply 1

/-- The part of `del` after its key has been received. -/
def answerDel (code : Int) (key : List UInt8) : NetProg Outcome := do
  if code > maxStrLen then reply 2
  else
    perform (.myjqlDel key)
    reply 1

/-- `get key`. -/
def serveGet (code : Int) : NetProg Outcome :=
  recvCode code fun code => recvBuffer code fun key => answerGet code key

/-- `set key value`. -/
def serveSet (code : Int) : NetProg Outcome :=
  recvCode code fun keyLen => recvBuffer keyLen fun key =>
    recvCode keyLen fun valueLen => recvBuffer valueLen fun value => answerSet keyLen key valueLen value

/-- `del key`. -/
def serveDel (code : Int) : NetProg Outcome :=
  recvCode code fun code => recvBuffer code fun key => answerDel code key

/-- The branch that the request code selects. -/
def dispatch (code : Int) : NetProg Outcome :=
  if code = 0 then serveGet code
  else if code = 1 then serveSet code
  else if code = 2 then serveDel code
  else if code = 3 then sendBytes (intBytes 1) (return .exits)
  else return .again code

/-- One round of the loop. -/
def serveRequest (code : Int) : NetProg Outcome := recvCode code dispatch

/-- The loop of `InstanceThread`, for a number of rounds. -/
def instanceThread : Nat → Int → NetProg Outcome
  | 0, _ => .fail
  | rounds + 1, code => do
      match ← serveRequest code with
      | .again code' => instanceThread rounds code'
      | ended => return ended

/-! ## The world -/

/-- A call of the engine. -/
inductive Call where
  | get (key : List UInt8)
  | set (key value : List UInt8)
  | del (key : List UInt8)
  deriving DecidableEq, Repr

/-- The contents of a database. -/
abbrev Contents := List UInt8 → Option (List UInt8)

/-- The effect of a call on the contents. -/
def Call.apply (contents : Contents) : Call → Contents
  | .get _ => contents
  | .set key value => Function.update contents key (some value)
  | .del key => Function.update contents key none

/-- What the thread does not decide: the engine's answers and the content of fresh memory. -/
structure World where
  answer : List Call → List UInt8 → Option (List UInt8)
  junk : List Call → Nat → UInt8

/--
The connection, and the calls made so far. `cuts` limits what the next `recv`s
return; once it is used up, `recv` returns all it is asked for that is there.
-/
structure Wire where
  incoming : List UInt8
  cuts : List Nat
  outgoing : List UInt8
  calls : List Call

/-- How many bytes a `recv` of `count` bytes returns. -/
def Wire.received (wire : Wire) (count : Nat) : Nat :=
  min (match wire.cuts with
    | [] => count
    | cut :: _ => min (max cut 1) count) wire.incoming.length

/-- A `recv` of no bytes is not limited by the next entry of `cuts`. -/
def Wire.afterRecv (wire : Wire) (count : Nat) : Wire :=
  { wire with
    incoming := wire.incoming.drop (wire.received count)
    cuts := if count = 0 then wire.cuts else wire.cuts.tail }

/-- The meaning of the effects: sends succeed, and `recv` returns 0 at the end of the stream. -/
def netMeaning (world : World) : Meaning NetOp Wire
  | _, .recv buffer count, wire =>
      some (((wire.received count : Int), wire.incoming.take (wire.received count) ++
        buffer.drop (wire.received count)), wire.afterRecv count)
  | _, .send bytes, wire =>
      some ((bytes.length : Int), { wire with outgoing := wire.outgoing ++ bytes })
  | _, .malloc size, wire => some ((List.range size).map (world.junk wire.calls), wire)
  | _, .myjqlGet key maxSize, wire =>
      some ((world.answer wire.calls key).map (List.take maxSize),
        { wire with calls := wire.calls ++ [.get key] })
  | _, .myjqlSet key value, wire => some ((), { wire with calls := wire.calls ++ [.set key value] })
  | _, .myjqlDel key, wire => some ((), { wire with calls := wire.calls ++ [.del key] })

/-! ## Requests -/

inductive Request where
  | get (key : List UInt8)
  | set (key value : List UInt8)
  | del (key : List UInt8)

namespace Request

/-- The bytes of a request. -/
def encode : Request → List UInt8
  | .get key => intBytes 0 ++ (intBytes key.length ++ key)
  | .set key value => intBytes 1 ++ (intBytes key.length ++ (key ++ (intBytes value.length ++ value)))
  | .del key => intBytes 2 ++ (intBytes key.length ++ key)

/-- Lengths whose buffer size `length + 1` is an `int`. -/
def Sendable : Request → Prop
  | .get key => key.length + 1 < 2 ^ 31
  | .set key value => key.length + 1 < 2 ^ 31 ∧ value.length + 1 < 2 ^ 31
  | .del key => key.length + 1 < 2 ^ 31

/-- The call a request is for; none if a length is above `MAX_STR_LEN`. -/
def call : Request → Option Call
  | .get key => if key.length ≤ maxStrLen then some (.get key) else none
  | .set key value =>
      if key.length ≤ maxStrLen ∧ value.length ≤ maxStrLen then some (.set key value) else none
  | .del key => if key.length ≤ maxStrLen then some (.del key) else none

/-- What a request leaves in `code`: the reply code, or the length of the value found. -/
def codeAfter (world : World) (calls : List Call) : Request → Int
  | .get key =>
      if key.length ≤ maxStrLen then
        match world.answer calls key with
        | none => 0
        | some value => (value.take maxStrLen).length
      else 2
  | .set key value =>
      if key.length ≤ maxStrLen then if value.length ≤ maxStrLen then 1 else 3 else 2
  | .del key => if key.length ≤ maxStrLen then 1 else 2

end Request

end MyJQL.Server
