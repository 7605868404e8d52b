import MyJQL.Server.Disconnect

/-!
# A request that breaks off

When the stream ends inside a request, the lengths that have not arrived keep the bytes
`code` had before, and the buffers are what `malloc` returned. The thread goes on with
them as if they had been sent.
-/

namespace MyJQL.Server

open Library Library.Prog

/-! ## Lengths received in part -/

section Overlaid

theorem natOfBytes_take_drop (bytes : List UInt8) (count : Nat) (inside : count ≤ bytes.length) :
    natOfBytes (bytes.take count) = natOfBytes bytes % 256 ^ count ∧
      natOfBytes (bytes.drop count) = natOfBytes bytes / 256 ^ count := by
  have length : (bytes.take count).length = count := by
    rw [List.length_take]
    exact Nat.min_eq_left inside
  have joined : natOfBytes bytes =
      natOfBytes (bytes.take count) + 256 ^ count * natOfBytes (bytes.drop count) := by
    conv_lhs => rw [← List.take_append_drop count bytes]
    rw [natOfBytes_append, length]
  have bound : natOfBytes (bytes.take count) < 256 ^ count := by
    conv_rhs => rw [← length]
    exact natOfBytes_lt _
  constructor
  · rw [joined, Nat.add_mul_mod_self_left, Nat.mod_eq_of_lt bound]
  · rw [joined, Nat.add_mul_div_left _ _ (by positivity), Nat.div_eq_of_lt bound, Nat.zero_add]

/-- The low `count` bytes of one number over the high bytes of another. -/
def overlaid (count new old : Nat) : Nat := new % 256 ^ count + 256 ^ count * (old / 256 ^ count)

theorem overlaid_four {new old : Nat} (newSmall : new < 2 ^ 32) (oldSmall : old < 2 ^ 32) :
    overlaid 4 new old = new := by
  unfold overlaid
  omega

theorem overlaid_lt {count new old : Nat} (few : count ≤ 4) (newSmall : new < 2 ^ 31)
    (oldSmall : old < 2 ^ 31) : overlaid count new old < 2 ^ 31 := by
  unfold overlaid
  interval_cases count <;> omega

/-- A length over one that is not above `MAX_STR_LEN` has a successor that is an `int`. -/
theorem overlaid_succ_lt {count new old : Nat} (few : count ≤ 4) (newSmall : new + 1 < 2 ^ 31)
    (oldShort : old ≤ maxStrLen) : overlaid count new old + 1 < 2 ^ 31 := by
  unfold overlaid
  simp only [maxStrLen] at oldShort
  interval_cases count <;> omega

/-- The bytes of `code` after part of an `int` has arrived. -/
theorem natOfBytes_assembled {code value : Int} {part rest : List UInt8}
    (broken : part <+: intBytes value ++ rest) :
    natOfBytes (part.take 4 ++ (intBytes code).drop (part.take 4).length) =
      overlaid (min part.length 4) (value % 2 ^ 32).toNat (code % 2 ^ 32).toNat := by
  have few : min part.length 4 ≤ 4 := Nat.min_le_right _ _
  have length : (part.take 4).length = min part.length 4 := by
    rw [List.length_take, Nat.min_comm]
  have arrived : part.take 4 = (intBytes value).take (min part.length 4) := by
    have whole : part = (intBytes value ++ rest).take part.length := List.prefix_iff_eq_take.mp broken
    have first : (intBytes value ++ rest).take 4 = intBytes value := List.take_left' (length_intBytes value)
    conv_lhs => rw [whole, List.take_take]
    conv_rhs => rw [← first, List.take_take]
    congr 1
    omega
  have valueBytes := (natOfBytes_take_drop (intBytes value) (min part.length 4)
    (by rw [length_intBytes]; exact few)).1
  have codeBytes := (natOfBytes_take_drop (intBytes code) (min part.length 4)
    (by rw [length_intBytes]; exact few)).2
  rw [natOfBytes_append, length, arrived, valueBytes, codeBytes, natOfBytes_intBytes, natOfBytes_intBytes]
  rfl

/-- A length received in part over an earlier one. -/
theorem assembled_eq {code length : Nat} {part rest : List UInt8} (codeSmall : code < 2 ^ 31)
    (lengthSmall : length < 2 ^ 31) (broken : part <+: intBytes length ++ rest) :
    assembled code part = (overlaid (min part.length 4) length code : Int) := by
  have bound := overlaid_lt (Nat.min_le_right part.length 4) lengthSmall codeSmall
  have lengthWord : ((length : Int) % 2 ^ 32).toNat = length := by omega
  have codeWord : ((code : Int) % 2 ^ 32).toNat = code := by omega
  unfold assembled intOfBytes
  rw [natOfBytes_assembled broken, lengthWord, codeWord, if_pos bound]

theorem isInt_assembled (code : Int) (part : List UInt8) : IsInt (assembled code part) := by
  have length : (part.take 4 ++ (intBytes code).drop (part.take 4).length).length = 4 := by
    rw [List.length_append, List.length_drop, length_intBytes, List.length_take]
    omega
  have bound := natOfBytes_lt (part.take 4 ++ (intBytes code).drop (part.take 4).length)
  rw [length] at bound
  unfold assembled intOfBytes
  constructor <;> split <;> omega

/-- A request code received in part is the exit code only if it was to be. -/
theorem assembled_eq_three {code value : Int} {part rest : List UInt8} (range : IsInt code)
    (request : 0 ≤ value ∧ value ≤ 3) (arrived : part ≠ []) (broken : part <+: intBytes value ++ rest) :
    assembled code part = 3 ↔
      value = 3 ∧ (part.length < 4 → 0 ≤ code ∧ code < 256 ^ part.length) := by
  have positive : 0 < part.length := List.length_pos_iff.mpr arrived
  obtain ⟨low, high⟩ := range
  obtain ⟨nonnegative, small⟩ := request
  unfold assembled intOfBytes
  rw [natOfBytes_assembled broken]
  unfold overlaid
  by_cases whole : 4 ≤ part.length
  · have four : min part.length 4 = 4 := Nat.min_eq_right whole
    rw [four]
    split <;> omega
  · have some : min part.length 4 = part.length := by omega
    rw [some]
    generalize part.length = count at *
    interval_cases count <;> split <;> omega

end Overlaid

/-! ## The fields of a request -/

section Fields

variable {world : World} {wire : Wire} {code : Int} {calls : List Call}

/-- Part of a string whose length has arrived in part. -/
theorem drop_overlaid {code : Nat} {part field : List UInt8} (codeSmall : code < 2 ^ 31)
    (small : field.length < 2 ^ 31) (broken : part <+: intBytes field.length ++ field)
    (strict : part ≠ intBytes field.length ++ field) :
    (part.drop 4).drop (overlaid (min part.length 4) field.length code) = [] := by
  have length := broken.length_le
  have different : part.length ≠ (intBytes field.length ++ field).length := fun same =>
    strict (broken.eq_of_length same)
  rw [List.length_append, length_intBytes] at length different
  rw [List.drop_drop]
  apply List.drop_of_length_le
  by_cases whole : 4 ≤ part.length
  · have four : min part.length 4 = 4 := Nat.min_eq_right whole
    rw [four, overlaid_four (by omega) (by omega)]
    omega
  · omega

theorem Wire.afterRecv_uncut (wire : Wire) (uncut : wire.cuts = []) (count : Nat) :
    wire.afterRecv count = { wire with incoming := wire.incoming.drop count } := by
  obtain ⟨incoming, cuts, outgoing, calls⟩ := wire
  dsimp only at uncut
  subst uncut
  have received : (Wire.mk incoming [] outgoing calls).received count = min count incoming.length := rfl
  unfold Wire.afterRecv
  rw [received]
  dsimp only
  rw [← List.drop_eq_drop_min, List.tail_nil, ite_self]

/--
A length and a string that do not arrive in full leave the stream at its end. What
follows works on whatever the buffer holds.
-/
theorem continues_field {code : Nat} {part field : List UInt8} {result : Prop} (uncut : wire.cuts = [])
    (arrived : wire.incoming = part) (codeSmall : code < 2 ^ 31) (small : field.length + 1 < 2 ^ 31)
    (broken : part <+: intBytes field.length ++ field) (strict : part ≠ intBytes field.length ++ field)
    {next : Int → List UInt8 → NetProg Outcome}
    (rest : ∀ buffer, Continues world (next (overlaid (min part.length 4) field.length code) buffer)
      { wire with incoming := [] } calls ↔ result) :
    Continues world (recvCode code fun length => recvBuffer length (next length)) wire calls ↔
      overlaid (min part.length 4) field.length code + 1 < 2 ^ 31 ∧ result := by
  have known := assembled_eq codeSmall (by omega) broken
  have emptied := drop_overlaid codeSmall (by omega) broken strict
  generalize overlaid (min part.length 4) field.length code = length at known emptied rest ⊢
  rw [Continues.congr (run_recvCode_uncut uncut _), arrived, known]
  by_cases defined : length + 1 < 2 ^ 31
  · have after := Wire.afterRecv_uncut { wire with incoming := part.drop 4 } uncut length
    dsimp only at after
    rw [Continues.congr (run_recvBuffer defined _), after, emptied, and_iff_right defined]
    exact rest _
  · refine iff_of_false ?_ fun both => defined both.1
    have undefined : (length : Int) < 0 ∨ 2 ^ 31 ≤ (length : Int) + 1 := by omega
    rintro ⟨outcome, final, ran, -⟩
    rw [recvBuffer, if_pos undefined] at ran
    cases ran

theorem isInt_two : IsInt 2 := by
  constructor <;> decide

/-- A key that does not arrive in full is used in a call, or refused with code 2. -/
theorem continues_answerGet_atEnd {length : Nat} {key : List UInt8} (atEnd : wire.AtEnd) :
    ¬ Continues world (answerGet length key) wire wire.calls := by
  by_cases short : length ≤ maxStrLen
  · exact not_continues_answerGet short
  · have long : (length : Int) > maxStrLen := by omega
    rw [answerGet, if_pos long, continues_reply_atEnd atEnd isInt_two]
    decide

theorem continues_answerDel_atEnd {length : Nat} {key : List UInt8} (atEnd : wire.AtEnd) :
    ¬ Continues world (answerDel length key) wire wire.calls := by
  by_cases short : length ≤ maxStrLen
  · exact not_continues_answerDel short
  · have long : (length : Int) > maxStrLen := by omega
    rw [answerDel, if_pos long, continues_reply_atEnd atEnd isInt_two]
    decide

/-- Only a value that is too long, under a key that is not, leaves the exit code behind. -/
theorem continues_answerSet_atEnd {keyLen valueLen : Nat} {key value : List UInt8} (atEnd : wire.AtEnd) :
    Continues world (answerSet keyLen key valueLen value) wire wire.calls ↔
      keyLen ≤ maxStrLen ∧ maxStrLen < valueLen := by
  by_cases keyShort : keyLen ≤ maxStrLen
  · by_cases valueShort : valueLen ≤ maxStrLen
    · exact iff_of_false (not_continues_answerSet keyShort valueShort) (by omega)
    · have fits : ¬ ((keyLen : Int) > maxStrLen) := by omega
      have long : (valueLen : Int) > maxStrLen := by omega
      have isInt : IsInt 3 := by
        constructor <;> decide
      rw [answerSet, if_neg fits, if_pos long, continues_reply_atEnd atEnd isInt]
      exact iff_of_true rfl ⟨keyShort, Nat.lt_of_not_le valueShort⟩
  · have long : (keyLen : Int) > maxStrLen := by omega
    rw [answerSet, if_pos long, continues_reply_atEnd atEnd isInt_two]
    exact iff_of_false (by decide) fun both => keyShort both.1

end Fields

/-! ## A request whose code has arrived -/

section Code

variable {world : World} {wire : Wire} {key value part : List UInt8}

theorem not_continues_serveGet (uncut : wire.cuts = []) (arrived : wire.incoming = part)
    (small : key.length + 1 < 2 ^ 31) (broken : part <+: intBytes key.length ++ key)
    (strict : part ≠ intBytes key.length ++ key) : ¬ Continues world (serveGet 0) wire wire.calls := by
  have atEnd : Wire.AtEnd { wire with incoming := [] } := ⟨rfl, uncut⟩
  have ended : Continues world (serveGet ((0 : Nat) : Int)) wire wire.calls ↔ _ ∧ False :=
    continues_field uncut arrived (by decide) small broken strict fun buffer =>
      iff_false_intro (continues_answerGet_atEnd atEnd)
  exact fun continues => (ended.mp continues).2

theorem not_continues_serveDel (uncut : wire.cuts = []) (arrived : wire.incoming = part)
    (small : key.length + 1 < 2 ^ 31) (broken : part <+: intBytes key.length ++ key)
    (strict : part ≠ intBytes key.length ++ key) : ¬ Continues world (serveDel 2) wire wire.calls := by
  have atEnd : Wire.AtEnd { wire with incoming := [] } := ⟨rfl, uncut⟩
  have ended : Continues world (serveDel ((2 : Nat) : Int)) wire wire.calls ↔ _ ∧ False :=
    continues_field uncut arrived (by decide) small broken strict fun buffer =>
      iff_false_intro (continues_answerDel_atEnd atEnd)
  exact fun continues => (ended.mp continues).2

/-- The key of a `set` does not arrive in full: the value is taken to have its length. -/
theorem not_continues_serveSet (uncut : wire.cuts = []) (arrived : wire.incoming = part)
    (small : key.length + 1 < 2 ^ 31) (broken : part <+: intBytes key.length ++ key)
    (strict : part ≠ intBytes key.length ++ key) : ¬ Continues world (serveSet 1) wire wire.calls := by
  have atEnd : Wire.AtEnd { wire with incoming := [] } := ⟨rfl, uncut⟩
  have bound := overlaid_lt (Nat.min_le_right part.length 4) (Nat.lt_of_succ_lt small)
    (by decide : 1 < 2 ^ 31)
  have ended : Continues world (serveSet ((1 : Nat) : Int)) wire wire.calls ↔ _ ∧ False :=
    continues_field uncut arrived (by decide) small broken strict fun buffer => by
      refine iff_false_intro ?_
      rw [Continues.congr (run_recvCode_atEnd atEnd ⟨by omega, by omega⟩ _)]
      refine not_continues_recvBuffer fun value => ?_
      rw [atEnd.afterRecv]
      intro continues
      have sizes := (continues_answerSet_atEnd atEnd).mp continues
      omega
  exact fun continues => (ended.mp continues).2

/-- The key of a `set` has arrived, its value has not. -/
theorem continues_serveSet_value (uncut : wire.cuts = [])
    (arrived : wire.incoming = intBytes key.length ++ (key ++ part)) (keySmall : key.length + 1 < 2 ^ 31)
    (valueSmall : value.length + 1 < 2 ^ 31) (broken : part <+: intBytes value.length ++ value)
    (strict : part ≠ intBytes value.length ++ value) :
    Continues world (serveSet 1) wire wire.calls ↔ key.length ≤ maxStrLen ∧
      maxStrLen < overlaid (min part.length 4) value.length key.length := by
  obtain ⟨incoming, cuts, outgoing, calls⟩ := wire
  dsimp only at uncut arrived
  subst uncut arrived
  have atEnd : Wire.AtEnd ⟨[], [], outgoing, calls⟩ := ⟨rfl, rfl⟩
  rw [serveSet, Continues.congr (run_recvCode_full (isInt_natCast keySmall) rfl (serveFields_nil [4]) _),
    Continues.congr (run_recvBuffer_full keySmall rfl (serveFields_nil [key.length]) _)]
  have ended : Continues world (recvCode key.length fun valueLen => recvBuffer valueLen fun value =>
      answerSet key.length key valueLen value) ⟨part, [], outgoing, calls⟩ calls ↔ _ ∧ _ :=
    continues_field rfl rfl (Nat.lt_of_succ_lt keySmall) valueSmall broken strict fun buffer =>
      continues_answerSet_atEnd atEnd
  rw [ended]
  constructor
  · exact fun both => both.2
  · exact fun short => ⟨overlaid_succ_lt (Nat.min_le_right _ _) valueSmall short.1, short⟩

end Code

/-! ## Streams -/

/-- What a client may send: a request, or the exit code. -/
inductive Message where
  | request (request : Request)
  | exit

namespace Message

def encode : Message → List UInt8
  | .request asked => asked.encode
  | .exit => intBytes 3

def Sendable : Message → Prop
  | .request asked => asked.Sendable
  | .exit => True

def call : Message → Option Call
  | .request asked => asked.call
  | .exit => none

end Message

/-- The messages after the first exit code. -/
def afterExit : List Message → Option (List Message)
  | [] => none
  | .exit :: rest => some rest
  | .request _ :: rest => afterExit rest

/-- Only the value of a `set` is missing, and the length it is taken to have is too long. -/
def ValueRefused (last : Message) (tail : List UInt8) : Prop :=
  ∃ key value part, last = .request (.set key value) ∧
    tail = intBytes 1 ++ (intBytes key.length ++ (key ++ part)) ∧ key.length ≤ maxStrLen ∧
    maxStrLen < overlaid (min part.length 4) value.length key.length

/--
What the last message leaves in `code` is 3: a `get` that found a value of three bytes,
or a `set` whose value was refused. Without a message it is what `code` held at the start.
-/
def LeavesExit (world : World) (code : Int) (messages : List Message) : Prop :=
  (messages = [] ∧ code = 3) ∨
  (∃ before key value, messages = before ++ [.request (.get key)] ∧ key.length ≤ maxStrLen ∧
    world.answer (before.filterMap Message.call) key = some value ∧ value.length = 3) ∨
  (∃ before key value, messages = before ++ [.request (.set key value)] ∧ key.length ≤ maxStrLen ∧
    maxStrLen < value.length)

/-- What the last message leaves in `code` is below a power of 256. -/
def LeavesBelow (world : World) (code : Int) (messages : List Message) (bound : Nat) : Prop :=
  (messages = [] → 0 ≤ code ∧ code < bound) ∧
  (∀ before key value, messages = before ++ [.request (.get key)] → key.length ≤ maxStrLen →
    world.answer (before.filterMap Message.call) key = some value → min maxStrLen value.length < bound)

/-- The streams after whose end nothing is called and the loop ends. -/
def EndsQuietly (world : World) (code : Int) (messages : List Message) (last : Message)
    (tail : List UInt8) : Prop :=
  match afterExit messages with
  | some unread => unread.filterMap Message.call = []
  | none =>
      tail = [] ∧ LeavesExit world code messages ∨ ValueRefused last tail ∨
      tail ≠ [] ∧ last = .exit ∧ LeavesBelow world code messages (256 ^ tail.length)

section Streams

variable {world : World} {wire : Wire} {code : Int} {tail : List UInt8} {last : Message}

/-- The stream breaks off inside the request code. -/
theorem continues_broken_code {value : Int} {rest : List UInt8} (uncut : wire.cuts = [])
    (range : IsInt code) (request : 0 ≤ value ∧ value ≤ 3) (short : tail.length < 4) (arrived : tail ≠ [])
    (broken : tail <+: intBytes value ++ rest) :
    Continues world (dispatch (assembled code tail)) { wire with incoming := tail.drop 4 } wire.calls ↔
      value = 3 ∧ 0 ≤ code ∧ code < 256 ^ tail.length := by
  have atEnd : Wire.AtEnd { wire with incoming := tail.drop 4 } :=
    ⟨List.drop_of_length_le (Nat.le_of_lt short), uncut⟩
  rw [continues_dispatch_atEnd atEnd (isInt_assembled code tail),
    assembled_eq_three range request arrived broken]
  exact and_congr_right fun _ => ⟨fun known => known short, fun known _ => known⟩

/-- The stream breaks off inside a first part, or after it. -/
theorem broken_cases {part first rest : List UInt8} (broken : part <+: first ++ rest) :
    (part <+: first ∧ part ≠ first) ∨ ∃ later, part = first ++ later ∧ later <+: rest := by
  by_cases inside : part.length < first.length
  · refine .inl ⟨List.prefix_of_prefix_length_le broken (List.prefix_append _ _) (Nat.le_of_lt inside), ?_⟩
    rintro rfl
    exact Nat.lt_irrefl _ inside
  · obtain ⟨later, rfl⟩ := List.prefix_of_prefix_length_le (List.prefix_append first rest) broken
      (Nat.le_of_not_lt inside)
    exact .inr ⟨later, rfl, (List.prefix_append_right_inj _).mp broken⟩

theorem assembled_full {value : Int} {part : List UInt8} (range : IsInt value) :
    assembled code (intBytes value ++ part) = value := by
  have first : (intBytes value ++ part).take 4 = intBytes value := List.take_left' (length_intBytes value)
  have none : (intBytes code).drop 4 = [] := List.drop_of_length_le (le_of_eq (length_intBytes code))
  unfold assembled
  rw [first, length_intBytes, none, List.append_nil, intOfBytes_intBytes range]

/-- A `set` of which the code has arrived. -/
theorem continues_broken_set {key value part : List UInt8} (uncut : wire.cuts = [])
    (arrived : wire.incoming = part) (sendable : (Request.set key value).Sendable)
    (broken : part <+: intBytes key.length ++ (key ++ (intBytes value.length ++ value)))
    (strict : part ≠ intBytes key.length ++ (key ++ (intBytes value.length ++ value))) :
    Continues world (serveSet 1) wire wire.calls ↔
      ValueRefused (.request (.set key value)) (intBytes 1 ++ part) := by
  obtain ⟨keySmall, valueSmall⟩ := sendable
  rw [← List.append_assoc] at broken strict
  rcases broken_cases broken with ⟨short, different⟩ | ⟨later, rfl, within⟩
  · refine iff_of_false (not_continues_serveSet uncut arrived keySmall short different) ?_
    rintro ⟨key', value', later, same, sent, -⟩
    cases same
    rw [List.append_cancel_left_eq, ← List.append_assoc] at sent
    refine different (short.eq_of_length_le ?_)
    have bound : (intBytes key.length ++ key).length ≤ (intBytes key.length ++ key ++ later).length :=
      (List.prefix_append _ _).length_le
    exact sent ▸ bound
  · rw [List.append_assoc] at arrived
    rw [continues_serveSet_value uncut arrived keySmall valueSmall within
      fun same => strict (by rw [same])]
    constructor
    · exact fun sizes => ⟨key, value, later, rfl, by rw [List.append_assoc], sizes⟩
    · rintro ⟨key', value', later', same, sent, sizes⟩
      cases same
      rw [List.append_cancel_left_eq, List.append_assoc, List.append_cancel_left_eq,
        List.append_cancel_left_eq] at sent
      exact sent ▸ sizes

/-- The bytes of a value are only refused after those of the code. -/
theorem ValueRefused.long (refused : ValueRefused last tail) : 4 ≤ tail.length := by
  obtain ⟨key, value, part, -, rfl, -⟩ := refused
  rw [List.length_append, length_intBytes]
  omega

theorem not_valueRefused_get {key tail : List UInt8} : ¬ ValueRefused (.request (.get key)) tail := by
  rintro ⟨key', value, part, same, -⟩
  cases same

theorem not_valueRefused_del {key tail : List UInt8} : ¬ ValueRefused (.request (.del key)) tail := by
  rintro ⟨key', value, part, same, -⟩
  cases same

/-- The stream breaks off inside a message, within its code or after it. -/
theorem endsWith_message {value : Int} {rest : List UInt8} (uncut : wire.cuts = [])
    (arrived : wire.incoming = tail) (range : IsInt code) (some : tail ≠ [])
    (spelled : last.encode = intBytes value ++ rest) (request : 0 ≤ value ∧ value ≤ 3)
    (isExit : value = 3 ↔ last = .exit) (broken : tail <+: last.encode)
    (later : ∀ part, tail = intBytes value ++ part → part <+: rest →
      (Continues world (dispatch value) { wire with incoming := part } wire.calls ↔
        ValueRefused last tail ∨ last = .exit ∧ 0 ≤ code ∧ code < 256 ^ tail.length)) :
    EndsWith world code wire wire.calls ↔
      ValueRefused last tail ∨ last = .exit ∧ 0 ≤ code ∧ code < 256 ^ tail.length := by
  rw [endsWith_iff, serveRequest, Continues.congr (run_recvCode_uncut uncut _), arrived]
  rcases broken_cases (spelled ▸ broken) with ⟨short, different⟩ | ⟨part, sent, within⟩
  · have few : tail.length < 4 := by
      rw [← length_intBytes value]
      exact Nat.lt_of_le_of_ne short.length_le fun same => different (short.eq_of_length same)
    rw [continues_broken_code uncut range request few some (spelled ▸ broken), isExit]
    exact (or_iff_right fun refused => Nat.not_le_of_lt few refused.long).symm
  · have isInt : IsInt value := ⟨by omega, by omega⟩
    have known : assembled code tail = value := by rw [sent, assembled_full isInt]
    have unread : tail.drop 4 = part := by rw [sent, List.drop_left' (length_intBytes value)]
    rw [known, unread]
    exact later part sent within

/-- The stream breaks off inside a message. -/
theorem endsWith_broken (uncut : wire.cuts = []) (arrived : wire.incoming = tail) (range : IsInt code)
    (sendable : last.Sendable) (broken : tail <+: last.encode) (strict : tail ≠ last.encode)
    (some : tail ≠ []) : EndsWith world code wire wire.calls ↔
      ValueRefused last tail ∨ last = .exit ∧ 0 ≤ code ∧ code < 256 ^ tail.length := by
  cases last with
  | exit =>
      refine endsWith_message uncut arrived range some (List.append_nil _).symm (by decide)
        (iff_of_true rfl rfl) broken fun part sent within => ?_
      rw [List.prefix_nil.mp within, List.append_nil] at sent
      exact absurd sent strict
  | request asked =>
      have notExit {first : Prop} : first ↔ first ∨ Message.request asked = .exit ∧ 0 ≤ code ∧
          code < 256 ^ tail.length := by
        refine (or_iff_left ?_).symm
        rintro ⟨same, -⟩
        cases same
      cases asked with
      | get key =>
          refine endsWith_message uncut arrived range some rfl (by decide)
            (iff_of_false (by decide) nofun) broken fun part sent within => ?_
          have different : part ≠ intBytes key.length ++ key := by
            rintro rfl
            exact strict sent
          rw [← notExit]
          exact iff_of_false (not_continues_serveGet uncut rfl sendable within different)
            not_valueRefused_get
      | set key value =>
          refine endsWith_message uncut arrived range some rfl (by decide)
            (iff_of_false (by decide) nofun) broken fun part sent within => ?_
          have different : part ≠ intBytes key.length ++ (key ++ (intBytes value.length ++ value)) := by
            rintro rfl
            exact strict sent
          rw [← notExit, sent]
          exact continues_broken_set uncut rfl sendable within different
      | del key =>
          refine endsWith_message uncut arrived range some rfl (by decide)
            (iff_of_false (by decide) nofun) broken fun part sent within => ?_
          have different : part ≠ intBytes key.length ++ key := by
            rintro rfl
            exact strict sent
          rw [← notExit]
          exact iff_of_false (not_continues_serveDel uncut rfl sendable within different)
            not_valueRefused_del

/-! ## The code that the last message leaves -/

/-- The value of `code` after messages without an exit code. -/
theorem codeAfterAll_concat {requests : List Request} {request : Request} (calls : List Call) :
    codeAfterAll world calls code (requests ++ [request]) =
      request.codeAfter world (calls ++ requests.filterMap Request.call) := by
  induction requests generalizing calls code with
  | nil => rw [List.filterMap_nil, List.append_nil]; rfl
  | cons first rest ih =>
      rw [List.cons_append, codeAfterAll, ih, List.filterMap_cons]
      cases first.call with
      | none => rw [Option.toList_none, List.append_nil]
      | some call => rw [Option.toList_some, List.append_assoc, List.singleton_append]

theorem exists_requests {messages : List Message} (none : afterExit messages = none) :
    ∃ requests : List Request, messages = requests.map .request := by
  induction messages with
  | nil => exact ⟨[], rfl⟩
  | cons message rest ih =>
      cases message with
      | exit => cases none
      | request asked =>
          obtain ⟨requests, rfl⟩ := ih none
          exact ⟨asked :: requests, rfl⟩

theorem filterMap_call (requests : List Request) :
    (requests.map Message.request).filterMap Message.call = requests.filterMap Request.call := by
  rw [List.filterMap_map]
  rfl

theorem concat_inj {before before' : List Message} {asked asked' : Request}
    (same : before ++ [.request asked] = before' ++ [.request asked']) :
    before = before' ∧ asked = asked' := by
  obtain ⟨first, final⟩ := List.append_inj' same rfl
  exact ⟨first, by injection final with message; injection message⟩

/-- The reply or the length that makes the next code an exit code. -/
theorem codeAfter_eq_three_iff {before : List Message} {asked : Request} :
    asked.codeAfter world (before.filterMap Message.call) = 3 ↔
      LeavesExit world code (before ++ [.request asked]) := by
  constructor
  · intro left
    cases asked with
    | get key =>
        refine .inr (.inl ?_)
        simp only [Request.codeAfter] at left
        split at left
        · rename_i short
          split at left
          · cases left
          · rename_i value found
            refine ⟨before, key, value, rfl, short, found, ?_⟩
            rw [List.length_take] at left
            simp only [maxStrLen] at left
            omega
        · cases left
    | set key value =>
        refine .inr (.inr ⟨before, key, value, rfl, ?_⟩)
        simp only [Request.codeAfter] at left
        split at left
        · rename_i short
          split at left
          · cases left
          · rename_i long
            exact ⟨short, Nat.lt_of_not_le long⟩
        · cases left
    | del key =>
        simp only [Request.codeAfter] at left
        split at left <;> cases left
  · rintro (⟨none, -⟩ | ⟨before', key, value, same, short, found, length⟩ |
      ⟨before', key, value, same, short, long⟩)
    · cases List.append_ne_nil_of_right_ne_nil _ (List.cons_ne_nil _ _) none
    · obtain ⟨rfl, rfl⟩ := concat_inj same
      simp only [Request.codeAfter]
      rw [if_pos short, found]
      simp only [List.length_take, maxStrLen, length]
      rfl
    · obtain ⟨rfl, rfl⟩ := concat_inj same
      simp only [Request.codeAfter]
      rw [if_pos short, if_neg (Nat.not_le_of_lt long)]

/-- The replies are small; only the length of a value found can reach `bound`. -/
theorem codeAfter_lt_iff {before : List Message} {asked : Request} {bound : Nat} (room : 256 ≤ bound) :
    0 ≤ asked.codeAfter world (before.filterMap Message.call) ∧
        asked.codeAfter world (before.filterMap Message.call) < bound ↔
      LeavesBelow world code (before ++ [.request asked]) bound := by
  have notNil : before ++ [.request asked] = [] → 0 ≤ code ∧ code < bound := fun none => by
    cases List.append_ne_nil_of_right_ne_nil _ (List.cons_ne_nil _ _) none
  constructor
  · rintro ⟨-, small⟩
    refine ⟨notNil, ?_⟩
    intro before' key value same short found
    obtain ⟨rfl, rfl⟩ := concat_inj same
    simp only [Request.codeAfter] at small
    rw [if_pos short, found] at small
    simp only [List.length_take] at small
    omega
  · rintro ⟨-, small⟩
    cases asked with
    | get key =>
        have known := fun value => small before key value rfl
        simp only [Request.codeAfter]
        split
        · rename_i short
          split
          · omega
          · rename_i value found
            have lower := known value short found
            rw [List.length_take]
            omega
        · omega
    | set key value =>
        simp only [Request.codeAfter]
        split
        · split <;> omega
        · omega
    | del key =>
        simp only [Request.codeAfter]
        split <;> omega

theorem codeAfterAll_eq_three (requests : List Request) :
    codeAfterAll world [] code requests = 3 ↔ LeavesExit world code (requests.map .request) := by
  rcases List.eq_nil_or_concat' requests with rfl | ⟨before, asked, rfl⟩
  · constructor
    · exact fun left => .inl ⟨rfl, left⟩
    · rintro (⟨-, left⟩ | ⟨before, key, value, same, -⟩ | ⟨before, key, value, same, -⟩)
      · exact left
      · cases List.append_ne_nil_of_right_ne_nil _ (List.cons_ne_nil _ _) same.symm
      · cases List.append_ne_nil_of_right_ne_nil _ (List.cons_ne_nil _ _) same.symm
  · rw [codeAfterAll_concat, List.nil_append, ← filterMap_call, List.map_append]
    exact codeAfter_eq_three_iff

theorem codeAfterAll_lt (requests : List Request) {bound : Nat} (room : 256 ≤ bound) :
    0 ≤ codeAfterAll world [] code requests ∧ codeAfterAll world [] code requests < bound ↔
      LeavesBelow world code (requests.map .request) bound := by
  rcases List.eq_nil_or_concat' requests with rfl | ⟨before, asked, rfl⟩
  · constructor
    · refine fun left => ⟨fun _ => left, ?_⟩
      intro before key value same
      cases List.append_ne_nil_of_right_ne_nil _ (List.cons_ne_nil _ _) same.symm
    · exact fun left => left.1 rfl
  · rw [codeAfterAll_concat, List.nil_append, ← filterMap_call, List.map_append]
    exact codeAfter_lt_iff room

theorem isInt_codeAfter (calls : List Call) (asked : Request) : IsInt (asked.codeAfter world calls) := by
  cases asked with
  | get key =>
      simp only [Request.codeAfter]
      split
      · split
        · constructor <;> decide
        · rw [List.length_take]
          constructor <;> simp only [maxStrLen] <;> omega
      · constructor <;> decide
  | set key value =>
      simp only [Request.codeAfter]
      split
      · split <;> constructor <;> decide
      · constructor <;> decide
  | del key =>
      simp only [Request.codeAfter]
      split <;> constructor <;> decide

theorem isInt_codeAfterAll (range : IsInt code) (requests : List Request) (calls : List Call) :
    IsInt (codeAfterAll world calls code requests) := by
  induction requests generalizing calls code with
  | nil => exact range
  | cons request rest ih => exact ih (isInt_codeAfter calls request) _

/-! ## Streams that end -/

/-- A stream without an exit code. -/
theorem endsWith_unfinished {requests : List Request} (range : IsInt code)
    (sendable : ∀ request ∈ requests, request.Sendable) (lastSendable : last.Sendable)
    (broken : tail <+: last.encode) (strict : tail ≠ last.encode) :
    EndsWith world code ⟨requests.flatMap Request.encode ++ tail, [], [], []⟩
        (requests.filterMap Request.call) ↔
      tail = [] ∧ LeavesExit world code (requests.map .request) ∨ ValueRefused last tail ∨
      tail ≠ [] ∧ last = .exit ∧
        LeavesBelow world code (requests.map .request) (256 ^ tail.length) := by
  obtain ⟨outgoing, served⟩ := endsWith_requests sendable (serveFields_nil _) [] [] code
  rw [served]
  have isInt : IsInt (codeAfterAll world [] code requests) := isInt_codeAfterAll range requests []
  by_cases none : tail = []
  · subst none
    have atEnd : Wire.AtEnd ⟨[], [], outgoing, requests.filterMap Request.call⟩ := ⟨rfl, rfl⟩
    rw [List.nil_append, endsWith_atEnd atEnd isInt, codeAfterAll_eq_three]
    constructor
    · exact fun left => .inl ⟨rfl, left⟩
    · rintro (⟨-, left⟩ | refused | ⟨some, -⟩)
      · exact left
      · cases refused.long
      · exact absurd rfl some
  · have room : 256 ≤ 256 ^ tail.length :=
      Nat.le_self_pow (List.length_pos_iff.mpr none).ne' 256
    rw [List.nil_append, endsWith_broken rfl rfl isInt lastSendable broken strict none]
    have below : 0 ≤ codeAfterAll world [] code requests ∧
        codeAfterAll world [] code requests < (256 ^ tail.length : Nat) ↔ _ := codeAfterAll_lt requests room
    push_cast at below
    rw [below]
    constructor
    · rintro (refused | ⟨isExit, left⟩)
      · exact .inr (.inl refused)
      · exact .inr (.inr ⟨none, isExit, left⟩)
    · rintro (⟨empty, -⟩ | refused | ⟨-, isExit, left⟩)
      · exact absurd empty none
      · exact .inl refused
      · exact .inr ⟨isExit, left⟩

/-- A stream up to its first exit code. -/
theorem exists_exit {messages unread : List Message} (found : afterExit messages = some unread) :
    ∃ requests : List Request, messages = requests.map .request ++ .exit :: unread := by
  induction messages with
  | nil => cases found
  | cons message rest ih =>
      cases message with
      | exit =>
          cases found
          exact ⟨[], rfl⟩
      | request asked =>
          obtain ⟨requests, rfl⟩ := ih found
          exact ⟨asked :: requests, rfl⟩

theorem flatMap_encode (requests : List Request) :
    (requests.map Message.request).flatMap Message.encode = requests.flatMap Request.encode := by
  rw [List.flatMap_map]
  rfl

/-- A stream with an exit code: what stands after it is not read. -/
theorem endsWith_finished {requests : List Request} {unread : List Message} {rest : List UInt8}
    (sendable : ∀ request ∈ requests, request.Sendable) :
    EndsWith world code ⟨requests.flatMap Request.encode ++ (intBytes 3 ++ rest), [], [], []⟩
        (requests.filterMap Request.call ++ unread.filterMap Message.call) ↔
      unread.filterMap Message.call = [] := by
  obtain ⟨outgoing, served⟩ := endsWith_requests sendable (serveFields_nil _) [] [] code
  rw [served, endsWith_exit rfl (serveFields_nil _), List.nil_append, List.self_eq_append_right]

/--
The calls after a stream of messages that breaks off are those of its complete requests,
and the loop ends, exactly for the streams that end quietly.
-/
theorem disconnect_makes_no_call_iff (world : World) (code : Int) (range : IsInt code)
    (messages : List Message) (sendable : ∀ message ∈ messages, message.Sendable) (last : Message)
    (lastSendable : last.Sendable) (tail : List UInt8) (broken : tail <+: last.encode)
    (strict : tail ≠ last.encode) :
    EndsWith world code ⟨messages.flatMap Message.encode ++ tail, [], [], []⟩
        (messages.filterMap Message.call) ↔
      EndsQuietly world code messages last tail := by
  unfold EndsQuietly
  cases found : afterExit messages with
  | none =>
      obtain ⟨requests, rfl⟩ := exists_requests found
      have each : ∀ request ∈ requests, request.Sendable := fun request member =>
        sendable _ (List.mem_map_of_mem member)
      rw [flatMap_encode, filterMap_call]
      exact endsWith_unfinished range each lastSendable broken strict
  | some unread =>
      obtain ⟨requests, rfl⟩ := exists_exit found
      have each : ∀ request ∈ requests, request.Sendable := fun request member =>
        sendable _ (List.mem_append_left _ (List.mem_map_of_mem member))
      rw [List.flatMap_append, flatMap_encode, List.flatMap_cons, List.filterMap_append, filterMap_call,
        List.append_assoc, List.append_assoc, List.filterMap_cons_none rfl]
      exact endsWith_finished each

end Streams

/-- A client that sends only half of the exit code. -/
theorem disconnect_inside_exit_code :
    EndsWith emptyWorld 0 ⟨[Message.request (.get [97])].flatMap Message.encode ++ [3, 0], [], [], []⟩
      ([Message.request (.get [97])].filterMap Message.call) := by
  have sendable : ∀ message ∈ [Message.request (.get [97])], message.Sendable := by
    intro message member
    rw [List.mem_singleton] at member
    subst member
    exact (by decide : 1 + 1 < 2 ^ 31)
  have range : IsInt 0 := by
    constructor <;> decide
  have quiet : EndsQuietly emptyWorld 0 [.request (.get [97])] .exit [3, 0] := by
    refine .inr (.inr ⟨List.cons_ne_nil _ _, rfl, nofun, ?_⟩)
    intro before key value same short found
    cases found
  exact (disconnect_makes_no_call_iff emptyWorld 0 range _ sendable .exit trivial [3, 0]
    ⟨[0, 0], by decide⟩ (by decide)).mpr quiet

/-- After one `del` and the end of the stream the reply code 1 is taken for a `set`. -/
theorem disconnect_after_del :
    ¬ EndsWith emptyWorld 0 ⟨[Message.request (.del [97])].flatMap Message.encode ++ [], [], [], []⟩
      ([Message.request (.del [97])].filterMap Message.call) := by
  have sendable : ∀ request ∈ [Request.del [97]], request.Sendable := by
    intro request member
    rw [List.mem_singleton] at member
    subst member
    exact (by decide : 1 + 1 < 2 ^ 31)
  obtain ⟨outgoing, served⟩ := endsWith_requests sendable (serveFields_nil _) [] [] 0
  have range : IsInt 1 := by
    constructor <;> decide
  have atEnd : Wire.AtEnd ⟨[], [], outgoing, [.del [97]]⟩ := ⟨rfl, rfl⟩
  intro ended
  have next : EndsWith emptyWorld 1 ⟨[], [], outgoing, [.del [97]]⟩ [.del [97]] := served.mp ended
  cases (endsWith_atEnd atEnd range).mp next

end MyJQL.Server
