import MyJQL.Server.Wire

/-!
# What one request does

Runs of the parts of the loop, one lemma for each, and from them the round that a
complete request takes.
-/

namespace MyJQL.Server

open Library Library.Prog

/-! ## Integers on the wire -/

section Integers

theorem length_intBytes (value : Int) : (intBytes value).length = 4 := by
  rw [intBytes, List.length_map, List.length_range]

theorem natOfBytes_append (first second : List UInt8) :
    natOfBytes (first ++ second) = natOfBytes first + 256 ^ first.length * natOfBytes second := by
  induction first with
  | nil => simp [natOfBytes]
  | cons byte rest ih =>
      simp only [List.cons_append, natOfBytes, ih, List.length_cons, pow_succ]
      ring

theorem natOfBytes_lt (bytes : List UInt8) : natOfBytes bytes < 256 ^ bytes.length := by
  induction bytes with
  | nil => exact Nat.one_pos
  | cons byte rest ih =>
      have small := UInt8.toNat_lt byte
      simp only [natOfBytes, List.length_cons, pow_succ]
      omega

theorem natOfBytes_intBytes (value : Int) : natOfBytes (intBytes value) = (value % 2 ^ 32).toNat := by
  have spelled : intBytes value = [UInt8.ofNat ((value % 2 ^ 32).toNat),
      UInt8.ofNat ((value % 2 ^ 32).toNat / 256), UInt8.ofNat ((value % 2 ^ 32).toNat / 65536),
      UInt8.ofNat ((value % 2 ^ 32).toNat / 16777216)] := by
    simp [intBytes, List.range_succ]
  have bound : (value % 2 ^ 32).toNat < 4294967296 := by omega
  rw [spelled]
  generalize (value % 2 ^ 32).toNat = word at bound
  simp only [natOfBytes, UInt8.toNat_ofNat']
  omega

theorem intOfBytes_intBytes {value : Int} (range : IsInt value) : intOfBytes (intBytes value) = value := by
  obtain ⟨low, high⟩ := range
  unfold intOfBytes
  rw [natOfBytes_intBytes]
  split <;> omega

theorem isInt_natCast {length : Nat} (small : length + 1 < 2 ^ 31) : IsInt length := by
  constructor <;> omega

end Integers

/-! ## Runs of the parts -/

section Parts

variable {world : World} {wire : Wire} {code : Int}

@[simp]
theorem run_recvCode (next : Int → NetProg Outcome) :
    (recvCode code next).run (netMeaning world) wire =
      (next (intOfBytes (wire.incoming.take (wire.received 4) ++
        (intBytes code).drop (wire.received 4)))).run (netMeaning world) (wire.afterRecv 4) := by
  have proper : ((wire.received 4 : Nat) : Int) ≠ socketError := by
    simp only [socketError]
    omega
  unfold recvCode
  rw [run_bind, run_perform]
  simp only [netMeaning, Option.bind_some]
  rw [if_neg proper]

/-- A fresh buffer. -/
def World.buffer (world : World) (wire : Wire) (size : Nat) : List UInt8 :=
  (List.range size).map (world.junk wire.calls)

@[simp]
theorem run_recvBuffer {length : Nat} (small : length + 1 < 2 ^ 31) (next : List UInt8 → NetProg Outcome) :
    (recvBuffer length next).run (netMeaning world) wire =
      (next ((wire.incoming.take (wire.received length) ++
        (world.buffer wire (length + 1)).drop (wire.received length)).take length)).run
          (netMeaning world) (wire.afterRecv length) := by
  have defined : ¬ ((length : Int) < 0 ∨ 2 ^ 31 ≤ (length : Int) + 1) := by omega
  have proper : ((wire.received length : Nat) : Int) ≠ socketError := by
    simp only [socketError]
    omega
  unfold recvBuffer
  rw [if_neg defined, run_bind, run_perform]
  simp only [netMeaning, Option.bind_some]
  rw [run_bind, run_perform]
  simp only [netMeaning, Option.bind_some, Int.toNat_natCast]
  rw [if_neg proper]
  rfl

@[simp]
theorem run_sendBytes (bytes : List UInt8) (next : NetProg Outcome) :
    (sendBytes bytes next).run (netMeaning world) wire =
      next.run (netMeaning world) { wire with outgoing := wire.outgoing ++ bytes } := by
  have proper : ((bytes.length : Nat) : Int) ≠ socketError := by
    simp only [socketError]
    omega
  unfold sendBytes
  rw [run_bind, run_perform]
  simp only [netMeaning, Option.bind_some]
  rw [if_neg proper]

@[simp]
theorem run_reply (value : Int) : (reply value).run (netMeaning world) wire =
    some (.again value, { wire with outgoing := wire.outgoing ++ intBytes value }) := by
  unfold reply
  rw [run_sendBytes, run_pure]

end Parts

/-! ## Fields received in full -/

/-- The entries left in `cuts` once fields of these lengths are received in full; none if one is cut. -/
def serveFields : List Nat → List Nat → Option (List Nat)
  | cuts, [] => some cuts
  | cuts, 0 :: rest => serveFields cuts rest
  | [], (_ + 1) :: rest => serveFields [] rest
  | cut :: cuts, (length + 1) :: rest => if length + 1 ≤ max cut 1 then serveFields cuts rest else none

theorem serveFields_nil (lengths : List Nat) : serveFields [] lengths = some [] := by
  induction lengths with
  | nil => rfl
  | cons length rest ih =>
      cases length with
      | zero => exact ih
      | succ length => exact ih

theorem serveFields_cons {length : Nat} {cuts rest cuts' : List Nat}
    (served : serveFields cuts (length :: rest) = some cuts') :
    ∃ middle, serveFields cuts [length] = some middle ∧ serveFields middle rest = some cuts' := by
  cases length with
  | zero => exact ⟨cuts, rfl, served⟩
  | succ length =>
      cases cuts with
      | nil => exact ⟨[], rfl, served⟩
      | cons cut cuts =>
          by_cases enough : length + 1 ≤ max cut 1
          · rw [serveFields, if_pos enough] at served
            refine ⟨cuts, ?_, served⟩
            rw [serveFields, if_pos enough, serveFields]
          · rw [serveFields, if_neg enough] at served
            cases served

theorem serveFields_append {cuts first second cuts' : List Nat}
    (served : serveFields cuts (first ++ second) = some cuts') :
    ∃ middle, serveFields cuts first = some middle ∧ serveFields middle second = some cuts' := by
  induction first generalizing cuts with
  | nil => exact ⟨cuts, rfl, served⟩
  | cons length rest ih =>
      obtain ⟨middle, here, later⟩ := serveFields_cons served
      obtain ⟨middle', restServed, final⟩ := ih later
      refine ⟨middle', ?_, final⟩
      cases length with
      | zero =>
          cases here
          exact restServed
      | succ length =>
          cases cuts with
          | nil =>
              rw [serveFields_nil] at here ⊢
              cases here
              rw [serveFields_nil] at restServed
              exact restServed
          | cons cut cuts =>
              by_cases enough : length + 1 ≤ max cut 1
              · rw [serveFields, if_pos enough, serveFields] at here
                cases here
                rw [serveFields, if_pos enough]
                exact restServed
              · rw [serveFields, if_neg enough] at here
                cases here

section Full

variable {world : World} {wire : Wire} {bytes rest : List UInt8} {cuts' : List Nat}

theorem Wire.received_full (arrived : wire.incoming = bytes ++ rest)
    (served : serveFields wire.cuts [bytes.length] = some cuts') :
    wire.received bytes.length = bytes.length ∧
      wire.afterRecv bytes.length = { wire with incoming := rest, cuts := cuts' } := by
  obtain ⟨incoming, cuts, outgoing, calls⟩ := wire
  dsimp only at arrived
  subst arrived
  have full : (Wire.mk (bytes ++ rest) cuts outgoing calls).received bytes.length = bytes.length := by
    unfold Wire.received
    rw [List.length_append]
    cases length : bytes.length with
    | zero =>
        cases cuts with
        | nil => exact Nat.zero_min _
        | cons cut cuts =>
            dsimp only
            omega
    | succ length' =>
        rw [length] at served
        cases cuts with
        | nil =>
            dsimp only
            omega
        | cons cut cuts =>
            by_cases enough : length' + 1 ≤ max cut 1
            · dsimp only
              omega
            · rw [serveFields, if_neg enough] at served
              cases served
  refine ⟨full, ?_⟩
  unfold Wire.afterRecv
  rw [full]
  cases length : bytes.length with
  | zero =>
      rw [length] at served
      cases served
      have empty := List.eq_nil_of_length_eq_zero length
      simp [empty]
  | succ length' =>
      rw [length] at served
      rw [← length, if_neg (by omega)]
      have dropped : (bytes ++ rest).drop bytes.length = rest := List.drop_left
      rw [dropped]
      congr 1
      cases cuts with
      | nil =>
          rw [serveFields_nil] at served
          exact Option.some.inj served
      | cons cut cuts =>
          by_cases enough : length' + 1 ≤ max cut 1
          · rw [serveFields, if_pos enough, serveFields] at served
            exact Option.some.inj served
          · rw [serveFields, if_neg enough] at served
            cases served

/-- An `int` received in full. -/
theorem run_recvCode_full {code value : Int} (range : IsInt value)
    (arrived : wire.incoming = intBytes value ++ rest) (served : serveFields wire.cuts [4] = some cuts')
    (next : Int → NetProg Outcome) :
    (recvCode code next).run (netMeaning world) wire =
      (next value).run (netMeaning world) { wire with incoming := rest, cuts := cuts' } := by
  have length := length_intBytes value
  obtain ⟨full, after⟩ := Wire.received_full arrived (length.symm ▸ served)
  rw [length] at full after
  rw [run_recvCode, full, after, arrived, List.take_left' length,
    List.drop_of_length_le (le_of_eq (length_intBytes code)), List.append_nil, intOfBytes_intBytes range]

/-- A buffer received in full. -/
theorem run_recvBuffer_full (small : bytes.length + 1 < 2 ^ 31) (arrived : wire.incoming = bytes ++ rest)
    (served : serveFields wire.cuts [bytes.length] = some cuts') (next : List UInt8 → NetProg Outcome) :
    (recvBuffer bytes.length next).run (netMeaning world) wire =
      (next bytes).run (netMeaning world) { wire with incoming := rest, cuts := cuts' } := by
  obtain ⟨full, after⟩ := Wire.received_full arrived served
  rw [run_recvBuffer small, full, after, arrived, List.take_left' rfl, List.take_left' rfl]

end Full

/-! ## A complete request -/

namespace Request

/-- The lengths of the fields of a request, as `recv` asks for them. -/
def fields : Request → List Nat
  | .get key => [4, 4, key.length]
  | .set key value => [4, 4, key.length, 4, value.length]
  | .del key => [4, 4, key.length]

/-- The bytes sent in answer to a request. -/
def answer (world : World) (calls : List Call) : Request → List UInt8
  | .get key =>
      if key.length ≤ maxStrLen then
        match world.answer calls key with
        | none => intBytes 0
        | some value => intBytes 1 ++ (intBytes (value.take maxStrLen).length ++ value.take maxStrLen)
      else intBytes 2
  | .set key value =>
      if key.length ≤ maxStrLen then
        if value.length ≤ maxStrLen then intBytes 1 else intBytes 3
      else intBytes 2
  | .del key => if key.length ≤ maxStrLen then intBytes 1 else intBytes 2

end Request

section Round

variable {world : World} {wire : Wire} {code : Int} {rest : List UInt8} {cuts' : List Nat}
  {request : Request}

/-- The connection after a request has been read, called for and answered. -/
def Wire.served (wire : Wire) (world : World) (request : Request) (rest : List UInt8)
    (cuts : List Nat) : Wire :=
  ⟨rest, cuts, wire.outgoing ++ request.answer world wire.calls,
    wire.calls ++ request.call.toList⟩

theorem run_answerGet {key : List UInt8} :
    (answerGet key.length key).run (netMeaning world) wire =
      some (.again ((Request.get key).codeAfter world wire.calls),
        wire.served world (.get key) wire.incoming wire.cuts) := by
  unfold answerGet
  by_cases short : key.length ≤ maxStrLen
  · have notLong : ¬ ((key.length : Int) > maxStrLen) := by omega
    rw [if_neg notLong, run_bind, run_perform]
    simp only [netMeaning, Option.bind_some]
    cases answered : world.answer wire.calls key with
    | none =>
        simp only [answered, Option.map_none, run_reply, Request.codeAfter, Request.answer, Wire.served,
          Request.call, if_pos short, Option.toList_some]
    | some value =>
        simp only [answered, Option.map_some, run_sendBytes, run_pure, Request.codeAfter, Request.answer,
          Wire.served, Request.call, if_pos short, Option.toList_some, List.append_assoc]
  · have long : (key.length : Int) > maxStrLen := by omega
    rw [if_pos long, run_reply]
    simp only [Request.codeAfter, Request.answer, Wire.served, Request.call, if_neg short,
      Option.toList_none, List.append_nil]

theorem run_answerDel {key : List UInt8} :
    (answerDel key.length key).run (netMeaning world) wire =
      some (.again ((Request.del key).codeAfter world wire.calls),
        wire.served world (.del key) wire.incoming wire.cuts) := by
  unfold answerDel
  by_cases short : key.length ≤ maxStrLen
  · have notLong : ¬ ((key.length : Int) > maxStrLen) := by omega
    rw [if_neg notLong, run_bind, run_perform]
    simp only [netMeaning, Option.bind_some, run_reply, Request.codeAfter, Request.answer, Wire.served,
      Request.call, if_pos short, Option.toList_some]
  · have long : (key.length : Int) > maxStrLen := by omega
    rw [if_pos long, run_reply]
    simp only [Request.codeAfter, Request.answer, Wire.served, Request.call, if_neg short,
      Option.toList_none, List.append_nil]

theorem run_answerSet {key value : List UInt8} :
    (answerSet key.length key value.length value).run (netMeaning world) wire =
      some (.again ((Request.set key value).codeAfter world wire.calls),
        wire.served world (.set key value) wire.incoming wire.cuts) := by
  unfold answerSet
  by_cases keyShort : key.length ≤ maxStrLen
  · have keyFits : ¬ ((key.length : Int) > maxStrLen) := by omega
    rw [if_neg keyFits]
    by_cases valueShort : value.length ≤ maxStrLen
    · have valueFits : ¬ ((value.length : Int) > maxStrLen) := by omega
      rw [if_neg valueFits, run_bind, run_perform]
      simp only [netMeaning, Option.bind_some, run_reply, Request.codeAfter, Request.answer,
        Wire.served, Request.call, if_pos keyShort, if_pos valueShort,
        if_pos (And.intro keyShort valueShort), Option.toList_some]
    · have long : (value.length : Int) > maxStrLen := by omega
      have none : ¬ (key.length ≤ maxStrLen ∧ value.length ≤ maxStrLen) := fun both =>
        valueShort both.2
      rw [if_pos long, run_reply]
      simp only [Request.codeAfter, Request.answer, Wire.served, Request.call, if_pos keyShort,
        if_neg valueShort, if_neg none, Option.toList_none, List.append_nil]
  · have long : (key.length : Int) > maxStrLen := by omega
    have none : ¬ (key.length ≤ maxStrLen ∧ value.length ≤ maxStrLen) := fun both => keyShort both.1
    rw [if_pos long, run_reply]
    simp only [Request.codeAfter, Request.answer, Wire.served, Request.call, if_neg keyShort,
      if_neg none, Option.toList_none, List.append_nil]

theorem run_serveGet {key : List UInt8} (small : key.length + 1 < 2 ^ 31)
    (arrived : wire.incoming = intBytes key.length ++ (key ++ rest))
    (fields : serveFields wire.cuts [4, key.length] = some cuts') :
    (serveGet code).run (netMeaning world) wire =
      some (.again ((Request.get key).codeAfter world wire.calls),
        wire.served world (.get key) rest cuts') := by
  obtain ⟨middle, first, second⟩ := serveFields_cons fields
  unfold serveGet
  rw [run_recvCode_full (isInt_natCast small) arrived first, run_recvBuffer_full small rfl second,
    run_answerGet]
  rfl

theorem run_serveDel {key : List UInt8} (small : key.length + 1 < 2 ^ 31)
    (arrived : wire.incoming = intBytes key.length ++ (key ++ rest))
    (fields : serveFields wire.cuts [4, key.length] = some cuts') :
    (serveDel code).run (netMeaning world) wire =
      some (.again ((Request.del key).codeAfter world wire.calls),
        wire.served world (.del key) rest cuts') := by
  obtain ⟨middle, first, second⟩ := serveFields_cons fields
  unfold serveDel
  rw [run_recvCode_full (isInt_natCast small) arrived first, run_recvBuffer_full small rfl second,
    run_answerDel]
  rfl

theorem run_serveSet {key value : List UInt8} (keySmall : key.length + 1 < 2 ^ 31)
    (valueSmall : value.length + 1 < 2 ^ 31)
    (arrived : wire.incoming =
      intBytes key.length ++ (key ++ (intBytes value.length ++ (value ++ rest))))
    (fields : serveFields wire.cuts [4, key.length, 4, value.length] = some cuts') :
    (serveSet code).run (netMeaning world) wire =
      some (.again ((Request.set key value).codeAfter world wire.calls),
        wire.served world (.set key value) rest cuts') := by
  obtain ⟨cuts1, first, fields1⟩ := serveFields_cons fields
  obtain ⟨cuts2, second, fields2⟩ := serveFields_cons fields1
  obtain ⟨cuts3, third, fourth⟩ := serveFields_cons fields2
  unfold serveSet
  rw [run_recvCode_full (isInt_natCast keySmall) arrived first,
    run_recvBuffer_full keySmall rfl second, run_recvCode_full (isInt_natCast valueSmall) rfl third,
    run_recvBuffer_full valueSmall rfl fourth, run_answerSet]
  rfl

/-- One round of the loop on a complete request. -/
theorem run_serveRequest (sendable : request.Sendable) (arrived : wire.incoming = request.encode ++ rest)
    (fields : serveFields wire.cuts request.fields = some cuts') :
    (serveRequest code).run (netMeaning world) wire =
      some (.again (request.codeAfter world wire.calls), wire.served world request rest cuts') := by
  cases request with
  | get key =>
      obtain ⟨middle, first, later⟩ := serveFields_cons fields
      rw [Request.encode, List.append_assoc, List.append_assoc] at arrived
      unfold serveRequest
      rw [run_recvCode_full ⟨by decide, by decide⟩ arrived first, dispatch, if_pos rfl]
      exact run_serveGet sendable rfl later
  | set key value =>
      obtain ⟨middle, first, later⟩ := serveFields_cons fields
      rw [Request.encode, List.append_assoc, List.append_assoc, List.append_assoc,
        List.append_assoc] at arrived
      unfold serveRequest
      rw [run_recvCode_full ⟨by decide, by decide⟩ arrived first, dispatch, if_neg (by decide),
        if_pos rfl]
      exact run_serveSet sendable.1 sendable.2 rfl later
  | del key =>
      obtain ⟨middle, first, later⟩ := serveFields_cons fields
      rw [Request.encode, List.append_assoc, List.append_assoc] at arrived
      unfold serveRequest
      rw [run_recvCode_full ⟨by decide, by decide⟩ arrived first, dispatch, if_neg (by decide),
        if_neg (by decide), if_pos rfl]
      exact run_serveDel sendable rfl later

end Round

end MyJQL.Server
