import MyJQL.Server.WireSpec

/-!
# Length fields from the wire

A key or value length is any `int`. It sizes a buffer and a `recv` before it is compared
with `MAX_STR_LEN`, and it is never compared with zero. What a round does is decided by
the length fields that it reads.
-/

namespace MyJQL.Server

open Library Library.Prog

/-- What `recv` of `code` leaves in `code`. -/
def Wire.readInt (wire : Wire) (code : Int) : Int :=
  intOfBytes (wire.incoming.take (wire.received 4) ++ (intBytes code).drop (wire.received 4))

/-- The length fields of the request that is read next: none, a key's, or a key's and a value's. -/
def Wire.lengthFields (wire : Wire) (code : Int) : List Int :=
  let request := wire.readInt code
  let atKey := wire.afterRecv 4
  let keyLen := atKey.readInt request
  let atValue := (atKey.afterRecv 4).afterRecv keyLen.toNat
  if request = 0 ∨ request = 2 then [keyLen]
  else if request = 1 then [keyLen, atValue.readInt keyLen]
  else []

/-- A length whose buffer size `length + 1` is a positive `int`. -/
def Sizeable (length : Int) : Prop := 0 ≤ length ∧ length + 1 < 2 ^ 31

/-- The lengths of a call. -/
def Call.lengths : Call → List Int
  | .get key => [(key.length : Int)]
  | .set key value => [(key.length : Int), (value.length : Int)]
  | .del key => [(key.length : Int)]

/-- Buffers of a positive size that is an `int`, and calls within `MAX_STR_LEN`. -/
def WithinLimits : ∀ β : Type, NetOp β → Wire → Prop
  | _, .malloc size, _ => 0 < size ∧ size < 2 ^ 31
  | _, .myjqlGet key _, _ => key.length ≤ maxStrLen
  | _, .myjqlSet key value, _ => key.length ≤ maxStrLen ∧ value.length ≤ maxStrLen
  | _, .myjqlDel key, _ => key.length ≤ maxStrLen
  | _, .recv _ _, _ => True
  | _, .send _, _ => True

/-- One call with the lengths that were read if they are within `MAX_STR_LEN`; otherwise a refusal. -/
def Answered (lengths : List Int) (before : Wire) (outcome : Outcome) (after : Wire) : Prop :=
  (lengths = [] ∧ after.calls = before.calls) ∨
    (∃ call, (∀ length ∈ lengths, length ≤ maxStrLen) ∧ call.lengths = lengths ∧
      after.calls = before.calls ++ [call]) ∨
    ∃ refusal, (refusal = 2 ∨ refusal = 3) ∧ (∃ length ∈ lengths, length > maxStrLen) ∧
      outcome = .again refusal ∧ after.outgoing = before.outgoing ++ intBytes refusal ∧
      after.calls = before.calls

/-- A round that computes every buffer size, keeps within the limits and answers. -/
def Contained (world : World) (code : Int) (wire : Wire) : Prop :=
  (serveRequest code).Always (netMeaning world) WithinLimits wire ∧
    ∃ outcome after, (serveRequest code).run (netMeaning world) wire = some (outcome, after) ∧
      Answered (wire.lengthFields code) wire outcome after

/-- The rounds of a thread, on any stream in any segments. -/
inductive Session (world : World) : Int → Wire → Prop where
  | opened (code : Int) (stream : List UInt8) (cuts : List Nat) : Session world code ⟨stream, cuts, [], []⟩
  | round {code code' : Int} {wire wire' : Wire} (before : Session world code wire)
      (ran : (serveRequest code).run (netMeaning world) wire = some (.again code', wire')) :
      Session world code' wire'

section Rounds

variable {world : World} {wire : Wire} {code : Int} {post : Outcome → Wire → Prop}

/-- The logic of the connection, with the limits as its guard. -/
abbrev limitLogic (world : World) : Logic NetOp Wire := .ofMeaning (netMeaning world) WithinLimits

theorem wp_recvCode {next : Int → NetProg Outcome}
    (rest : (next (wire.readInt code)).wp (limitLogic world) post (wire.afterRecv 4)) :
    (recvCode code next).wp (limitLogic world) post wire := by
  have proper : ((wire.received 4 : Nat) : Int) ≠ socketError := by
    simp only [socketError]
    omega
  unfold recvCode
  rw [wp_bind, wp_perform]
  refine ⟨trivial, _, _, rfl, ?_⟩
  dsimp only
  rw [if_neg proper]
  exact rest

theorem wp_recvBuffer {length : Nat} (small : length + 1 < 2 ^ 31) {next : List UInt8 → NetProg Outcome}
    (rest : ∀ bytes : List UInt8, bytes.length = length →
      (next bytes).wp (limitLogic world) post (wire.afterRecv length)) :
    (recvBuffer length next).wp (limitLogic world) post wire := by
  have defined : ¬ ((length : Int) < 0 ∨ 2 ^ 31 ≤ (length : Int) + 1) := by omega
  have proper : ((wire.received length : Nat) : Int) ≠ socketError := by
    simp only [socketError]
    omega
  have size : ((length : Int) + 1).toNat = length + 1 := by omega
  unfold recvBuffer
  rw [if_neg defined, wp_bind, wp_perform, size]
  refine ⟨⟨Nat.succ_pos length, small⟩, _, _, rfl, ?_⟩
  dsimp only
  rw [wp_bind, wp_perform]
  refine ⟨trivial, _, _, rfl, ?_⟩
  dsimp only
  rw [Int.toNat_natCast, if_neg proper]
  apply rest
  have received : wire.received length ≤ length ∧ wire.received length ≤ wire.incoming.length := by
    unfold Wire.received
    constructor
    · refine le_trans (Nat.min_le_left _ _) ?_
      split
      · exact le_rfl
      · exact Nat.min_le_right _ _
    · exact Nat.min_le_right _ _
  rw [List.length_take, List.length_append, List.length_take, List.length_drop, List.length_map,
    List.length_range]
  omega

theorem wp_sendBytes {bytes : List UInt8} {next : NetProg Outcome}
    (rest : next.wp (limitLogic world) post { wire with outgoing := wire.outgoing ++ bytes }) :
    (sendBytes bytes next).wp (limitLogic world) post wire := by
  have proper : ((bytes.length : Nat) : Int) ≠ socketError := by
    simp only [socketError]
    omega
  unfold sendBytes
  rw [wp_bind, wp_perform]
  refine ⟨trivial, _, _, rfl, ?_⟩
  dsimp only
  rw [if_neg proper]
  exact rest

/-- A buffer whose size is not a positive `int`. -/
theorem run_recvBuffer_none {length : Int} (refused : ¬ Sizeable length) (next : List UInt8 → NetProg Outcome) :
    (recvBuffer length next).run (netMeaning world) wire = none := by
  have undefined : length < 0 ∨ 2 ^ 31 ≤ length + 1 := by
    unfold Sizeable at refused
    omega
  rw [recvBuffer, if_pos undefined, run_fail]

/-- A refusal. -/
theorem wp_refuse {lengths : List Int} {before : Wire} {refusal : Int} (two : refusal = 2 ∨ refusal = 3)
    (long : ∃ length ∈ lengths, length > maxStrLen) (calls : wire.calls = before.calls)
    (outgoing : wire.outgoing = before.outgoing) :
    (reply refusal).wp (limitLogic world) (Answered lengths before) wire := by
  unfold reply
  apply wp_sendBytes
  rw [wp_pure]
  refine .inr (.inr ⟨refusal, two, long, rfl, ?_, calls⟩)
  dsimp only
  rw [outgoing]

theorem wp_answerGet {before : Wire} {key : List UInt8} (calls : wire.calls = before.calls)
    (outgoing : wire.outgoing = before.outgoing) :
    (answerGet key.length key).wp (limitLogic world) (Answered [(key.length : Int)] before) wire := by
  unfold answerGet
  by_cases long : (key.length : Int) > maxStrLen
  · rw [if_pos long]
    exact wp_refuse (.inl rfl) ⟨_, List.mem_singleton_self _, long⟩ calls outgoing
  · have short : key.length ≤ maxStrLen := by omega
    have made : ∀ outcome after, after.calls = wire.calls ++ [Call.get key] →
        Answered [(key.length : Int)] before outcome after := by
      intro outcome after added
      refine .inr (.inl ⟨.get key, ?_, rfl, ?_⟩)
      · rintro length member
        rw [List.mem_singleton.mp member]
        omega
      · rw [added, calls]
    rw [if_neg long, wp_bind, wp_perform]
    refine ⟨short, _, _, rfl, ?_⟩
    cases (world.answer wire.calls key).map (List.take maxStrLen) with
    | none => exact wp_sendBytes (made _ _ rfl)
    | some value => exact wp_sendBytes (wp_sendBytes (wp_sendBytes (made _ _ rfl)))

theorem wp_answerDel {before : Wire} {key : List UInt8} (calls : wire.calls = before.calls)
    (outgoing : wire.outgoing = before.outgoing) :
    (answerDel key.length key).wp (limitLogic world) (Answered [(key.length : Int)] before) wire := by
  unfold answerDel
  by_cases long : (key.length : Int) > maxStrLen
  · rw [if_pos long]
    exact wp_refuse (.inl rfl) ⟨_, List.mem_singleton_self _, long⟩ calls outgoing
  · have short : key.length ≤ maxStrLen := by omega
    rw [if_neg long, wp_bind, wp_perform]
    refine ⟨short, _, _, rfl, wp_sendBytes (.inr (.inl ⟨.del key, ?_, rfl, ?_⟩))⟩
    · intro length member
      rw [List.mem_singleton.mp member]
      omega
    · exact congrArg (· ++ [Call.del key]) calls

theorem wp_answerSet {before : Wire} {key value : List UInt8} (calls : wire.calls = before.calls)
    (outgoing : wire.outgoing = before.outgoing) :
    (answerSet key.length key value.length value).wp (limitLogic world)
      (Answered [(key.length : Int), (value.length : Int)] before) wire := by
  unfold answerSet
  by_cases keyLong : (key.length : Int) > maxStrLen
  · rw [if_pos keyLong]
    exact wp_refuse (.inl rfl) ⟨_, List.mem_cons_self, keyLong⟩ calls outgoing
  rw [if_neg keyLong]
  by_cases valueLong : (value.length : Int) > maxStrLen
  · rw [if_pos valueLong]
    exact wp_refuse (.inr rfl) ⟨_, List.mem_cons_of_mem _ (List.mem_singleton_self _), valueLong⟩ calls outgoing
  · have keyShort : key.length ≤ maxStrLen := by omega
    have valueShort : value.length ≤ maxStrLen := by omega
    rw [if_neg valueLong, wp_bind, wp_perform]
    refine ⟨⟨keyShort, valueShort⟩, _, _, rfl, wp_sendBytes (.inr (.inl ⟨.set key value, ?_, rfl, ?_⟩))⟩
    · intro length member
      rcases List.mem_cons.mp member with rfl | last
      · omega
      · rw [List.mem_singleton.mp last]
        omega
    · exact congrArg (· ++ [Call.set key value]) calls

/-- A length and a buffer of that size, received. -/
theorem wp_recvField {next : Int → List UInt8 → NetProg Outcome} (sizeable : Sizeable (wire.readInt code))
    (rest : ∀ bytes : List UInt8, (bytes.length : Int) = wire.readInt code →
      (next bytes.length bytes).wp (limitLogic world) post
        ((wire.afterRecv 4).afterRecv (wire.readInt code).toNat)) :
    (recvCode code fun length => recvBuffer length (next length)).wp (limitLogic world) post wire := by
  apply wp_recvCode
  obtain ⟨nonneg, small⟩ := sizeable
  obtain ⟨length, known⟩ := Int.eq_ofNat_of_zero_le nonneg
  rw [known] at small rest ⊢
  refine wp_recvBuffer (by omega) ?_
  intro bytes size
  have here := rest bytes (by rw [size])
  rw [Int.toNat_natCast, size] at here
  exact here

/-- A length field that is read decides whether the round goes on. -/
theorem run_recvField_none {next : Int → List UInt8 → NetProg Outcome} (refused : ¬ Sizeable (wire.readInt code)) :
    (recvCode code fun length => recvBuffer length (next length)).run (netMeaning world) wire = none := by
  rw [run_recvCode]
  exact run_recvBuffer_none refused _

theorem wp_serveRequest (sizeable : ∀ length ∈ wire.lengthFields code, Sizeable length) :
    (serveRequest code).wp (limitLogic world) (Answered (wire.lengthFields code) wire) wire := by
  apply wp_recvCode
  unfold Wire.lengthFields at sizeable ⊢
  dsimp only at sizeable ⊢
  generalize wire.readInt code = request at sizeable ⊢
  unfold dispatch
  by_cases get : request = 0
  · rw [if_pos get]
    rw [if_pos (.inl get)] at sizeable ⊢
    refine wp_recvField (sizeable _ (List.mem_singleton_self _)) fun key length => ?_
    rw [← length]
    exact wp_answerGet rfl rfl
  rw [if_neg get]
  by_cases set : request = 1
  · have other : ¬ (request = 0 ∨ request = 2) := by omega
    rw [if_pos set]
    rw [if_neg other, if_pos set] at sizeable ⊢
    refine wp_recvField (sizeable _ List.mem_cons_self) fun key length => ?_
    have valueSizeable := sizeable _ (List.mem_cons_of_mem _ (List.mem_singleton_self _))
    rw [← length] at valueSizeable ⊢
    refine wp_recvField valueSizeable fun value valueLength => ?_
    rw [← valueLength]
    exact wp_answerSet rfl rfl
  rw [if_neg set]
  by_cases del : request = 2
  · rw [if_pos del]
    rw [if_pos (.inr del)] at sizeable ⊢
    refine wp_recvField (sizeable _ (List.mem_singleton_self _)) fun key length => ?_
    rw [← length]
    exact wp_answerDel rfl rfl
  · have neither : ¬ (request = 0 ∨ request = 2) := by omega
    rw [if_neg del]
    rw [if_neg neither, if_neg set]
    by_cases exit : request = 3
    · rw [if_pos exit]
      exact wp_sendBytes (.inl ⟨rfl, rfl⟩)
    · rw [if_neg exit]
      exact .inl ⟨rfl, rfl⟩

/-- A round that reads a length without a buffer size has no result. -/
theorem run_serveRequest_none {length : Int} (member : length ∈ wire.lengthFields code)
    (refused : ¬ Sizeable length) : (serveRequest code).run (netMeaning world) wire = none := by
  have round : (serveRequest code).run (netMeaning world) wire =
      (dispatch (wire.readInt code)).run (netMeaning world) (wire.afterRecv 4) := run_recvCode _
  rw [round]
  unfold Wire.lengthFields at member
  dsimp only at member
  generalize wire.readInt code = request at member ⊢
  unfold dispatch
  by_cases get : request = 0
  · rw [if_pos get]
    rw [if_pos (.inl get), List.mem_singleton] at member
    exact run_recvField_none (member ▸ refused)
  rw [if_neg get]
  by_cases set : request = 1
  · have other : ¬ (request = 0 ∨ request = 2) := by omega
    rw [if_pos set]
    rw [if_neg other, if_pos set] at member
    by_cases keyRefused : Sizeable ((wire.afterRecv 4).readInt request)
    · obtain ⟨nonneg, small⟩ := keyRefused
      rcases List.mem_cons.mp member with key | value
      · exact absurd ⟨nonneg, small⟩ (key ▸ refused)
      · have valueRefused := List.mem_singleton.mp value ▸ refused
        obtain ⟨keyLength, known⟩ := Int.eq_ofNat_of_zero_le nonneg
        have atKey : (serveSet request).run (netMeaning world) (wire.afterRecv 4) =
            (recvBuffer ((wire.afterRecv 4).readInt request) fun key =>
              recvCode ((wire.afterRecv 4).readInt request) fun valueLen => recvBuffer valueLen fun value =>
                answerSet ((wire.afterRecv 4).readInt request) key valueLen value).run (netMeaning world)
              ((wire.afterRecv 4).afterRecv 4) := run_recvCode _
        rw [atKey]
        rw [known] at small valueRefused ⊢
        rw [run_recvBuffer (by omega)]
        rw [Int.toNat_natCast] at valueRefused
        exact run_recvField_none valueRefused
    · exact run_recvField_none keyRefused
  rw [if_neg set]
  by_cases del : request = 2
  · rw [if_pos del]
    rw [if_pos (.inr del), List.mem_singleton] at member
    exact run_recvField_none (member ▸ refused)
  · have neither : ¬ (request = 0 ∨ request = 2) := by omega
    rw [if_neg neither, if_neg set] at member
    exact absurd member List.not_mem_nil

theorem contained_iff : Contained world code wire ↔ ∀ length ∈ wire.lengthFields code, Sizeable length := by
  constructor
  · rintro ⟨-, outcome, after, ran, -⟩ length member
    by_contra refused
    rw [run_serveRequest_none member refused] at ran
    cases ran
  · intro sizeable
    have spec : (serveRequest code).wp (limitLogic world) (Answered (wire.lengthFields code) wire) wire :=
      wp_serveRequest sizeable
    obtain ⟨ended, always⟩ := run_of_wp spec
    exact ⟨always, ended⟩

/-- The calls of a session are within `MAX_STR_LEN`. -/
theorem Session.calls_short (session : Session world code wire) :
    ∀ call ∈ wire.calls, ∀ length ∈ call.lengths, length ≤ maxStrLen := by
  induction session with
  | opened code stream cuts => exact fun call member => absurd member List.not_mem_nil
  | @round code code' wire wire' before ran short =>
      have sizeable : ∀ length ∈ wire.lengthFields code, Sizeable length := by
        intro length member
        by_contra refused
        rw [run_serveRequest_none member refused] at ran
        cases ran
      obtain ⟨-, outcome, after, ended, answered⟩ := contained_iff.mpr sizeable
      rw [ran] at ended
      cases ended
      rcases answered with ⟨-, same⟩ | ⟨call, within, lengths, added⟩ | ⟨refusal, -, -, -, -, same⟩
      · rw [same]
        exact short
      · rw [added]
        intro other member
        rcases List.mem_append.mp member with earlier | last
        · exact short other earlier
        · rw [List.mem_singleton.mp last, lengths]
          exact within
      · rw [same]
        exact short

/--
In every session all calls so far are within the limits. The next round computes its buffer
sizes and is within the limits, refusing what is too long, if and only if every length it reads
is between 0 and the largest `int` but one.
-/
theorem hostile_lengths (session : Session world code wire) :
    (∀ call ∈ wire.calls, ∀ length ∈ call.lengths, 0 ≤ length ∧ length ≤ maxStrLen) ∧
      (Contained world code wire ↔ ∀ length ∈ wire.lengthFields code, 0 ≤ length ∧ length + 1 < 2 ^ 31) := by
  refine ⟨fun call member length inside => ⟨?_, session.calls_short call member length inside⟩, contained_iff⟩
  cases call with
  | get key =>
      rw [List.mem_singleton.mp inside]
      exact Int.natCast_nonneg _
  | set key value =>
      rcases List.mem_cons.mp inside with rfl | last
      · exact Int.natCast_nonneg _
      · rw [List.mem_singleton.mp last]
        exact Int.natCast_nonneg _
  | del key =>
      rw [List.mem_singleton.mp inside]
      exact Int.natCast_nonneg _

end Rounds

/-- A `del` with a key of 2000 bytes announced, none of them sent. -/
theorem hostile_lengths_refused :
    Contained ⟨fun _ _ => none, fun _ _ => 0⟩ 0 ⟨[2, 0, 0, 0, 208, 7, 0, 0], [], [], []⟩ :=
  (hostile_lengths (.opened 0 [2, 0, 0, 0, 208, 7, 0, 0] [])).2.mpr (by decide)

/-- A `get` with a key length of -1. -/
theorem negative_length_not_contained :
    ¬ Contained ⟨fun _ _ => none, fun _ _ => 0⟩ 0 ⟨[0, 0, 0, 0, 255, 255, 255, 255], [], [], []⟩ := by
  rw [contained_iff]
  intro sizeable
  have negative : (-1 : Int) ∈
      (Wire.mk [0, 0, 0, 0, 255, 255, 255, 255] [] [] []).lengthFields 0 := by decide
  exact absurd (sizeable (-1) negative).1 (by decide)

end MyJQL.Server
