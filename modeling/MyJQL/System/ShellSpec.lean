import MyJQL.System.Shell

/-!
# What the shell is for

The shell is meant to be a dialogue: one answer for each line, about the words of the line.
The buffer, the end of the input and the scans of `sscanf` are not part of it.
-/

namespace MyJQL.System

open Library Library.Prog Server

/-! ## Words -/

/-- The words of a text, which stand between white space. -/
def words (text : List UInt8) : List (List UInt8) := (text.splitOnP isSpace).filter fun word => word ≠ []

section Words

variable {text rest word : List UInt8} {byte : UInt8}

theorem words_space (space : isSpace byte = true) : words (byte :: text) = words text := by
  rw [words, List.splitOnP_cons_eq_if_modifyHead, if_pos space, List.filter_cons_of_neg (by decide)]
  rfl

theorem words_skip : words (text.dropWhile isSpace) = words text := by
  induction text with
  | nil => rfl
  | cons byte rest ih =>
      cases space : isSpace byte with
      | true => rw [List.dropWhile_cons_of_pos space, ih, words_space space]
      | false => rw [List.dropWhile_cons_of_neg (Bool.eq_false_iff.mp space)]

theorem words_append (letters : ∀ byte ∈ word, isSpace byte = false) (some : word ≠ [])
    (stops : ∀ byte later, rest = byte :: later → isSpace byte = true) : words (word ++ rest) = word :: words rest := by
  have kept (others : List (List UInt8)) :
      (word :: others).filter (fun word => decide (word ≠ [])) = word :: others.filter fun word => decide (word ≠ []) :=
    List.filter_cons_of_pos (decide_eq_true some)
  cases rest with
  | nil =>
      rw [List.append_nil, words, List.splitOnP_eq_singleton letters, kept]
      rfl
  | cons byte later =>
      have space := stops byte later rfl
      rw [words, List.splitOnP_append_cons_of_forall_mem letters byte space, kept, words_space space]
      rfl

/-- The first word is what a conversion takes. -/
theorem words_cons (start : text.dropWhile isSpace = byte :: rest) :
    words text = (byte :: rest).takeWhile (fun byte => !isSpace byte) ::
      words ((byte :: rest).dropWhile fun byte => !isSpace byte) := by
  have letter : isSpace byte = false := by
    have found := List.head?_dropWhile_not isSpace text
    rw [start] at found
    exact Bool.eq_false_iff.mpr fun space => by simp [space] at found
  rw [← words_skip, start]
  conv_lhs => rw [← List.takeWhile_append_dropWhile (p := fun byte => !isSpace byte) (l := byte :: rest)]
  refine words_append ?_ ?_ ?_
  · intro other member
    have letter' := List.mem_takeWhile_imp (p := fun byte => !isSpace byte) member
    exact Bool.eq_false_of_not_eq_true' letter'
  · rw [List.takeWhile_cons_of_pos (by rw [letter]; rfl)]
    exact List.cons_ne_nil _ _
  · intro other later stop
    have found := List.head?_dropWhile_not (fun byte => !isSpace byte) (byte :: rest)
    rw [stop] at found
    simpa using found

theorem words_nil (none : text.dropWhile isSpace = []) : words text = [] := by
  rw [← words_skip, none]
  rfl

/-- What is assigned to a conversion that has found this word. -/
def Conversion.assigns : Conversion × List UInt8 → Option (List UInt8)
  | (.skip, _) => none
  | (.word, found) => some found

/-- `sscanf` assigns the words of the text, one for each conversion. -/
theorem sscanf_eq (format : List Conversion) (text : List UInt8) :
    sscanf format text = (format.zip (words text)).filterMap Conversion.assigns := by
  induction format generalizing text with
  | nil => rfl
  | cons conversion format ih =>
      cases start : text.dropWhile isSpace with
      | nil =>
          rw [words_nil start]
          simp only [sscanf, start, List.zip_nil_right, List.filterMap_nil]
      | cons byte rest =>
          rw [words_cons start]
          cases conversion <;> simp only [sscanf, start, ih, List.zip_cons_cons, List.filterMap_cons, Conversion.assigns]

end Words

/-! ## Lines -/

/-- What the input begins with. -/
inductive Line where
  | ended
  | endless
  | tooLong (rest : List UInt8)
  | text (line rest : List UInt8)

/--
A line ends with a line feed and has no more bytes than the buffer has. The byte 255 ends the
input when it is read into the buffer; nothing ends the rest of a longer line but a line feed.
-/
def nextLine (input : List UInt8) : Line :=
  let line := input.takeWhile (· ≠ newline)
  let rest := input.dropWhile (· ≠ newline)
  if eofChar ∈ line.take (inputBufferSize + 1) then .ended
  else if inputBufferSize < line.length then if rest = [] then .endless else .tooLong rest.tail
  else if rest = [] then .ended else .text line rest.tail

/-- A byte that does not end a line or the input. -/
def Clean (line : List UInt8) : Prop := ∀ byte ∈ line, ¬ (byte = newline ∨ byte = eofChar)

/-- The ways in which the input can begin. -/
inductive Begins : List UInt8 → Line → Prop where
  | eof {line after : List UInt8} (clean : Clean line) (short : line.length ≤ inputBufferSize) :
      Begins (line ++ eofChar :: after) .ended
  | atEnd {line : List UInt8} (clean : Clean line) (short : line.length ≤ inputBufferSize) : Begins line .ended
  | text {line rest : List UInt8} (clean : Clean line) (short : line.length ≤ inputBufferSize) :
      Begins (line ++ newline :: rest) (.text line rest)
  | tooLong {line more rest : List UInt8} (clean : Clean line) (full : line.length = inputBufferSize + 1)
      (whole : newline ∉ more) : Begins (line ++ (more ++ newline :: rest)) (.tooLong rest)
  | endless {line more : List UInt8} (clean : Clean line) (full : line.length = inputBufferSize + 1)
      (whole : newline ∉ more) : Begins (line ++ more) .endless

theorem begins_nextLine (input : List UInt8) : Begins input (nextLine input) := by
  obtain ⟨line, rest, whole, stops, same⟩ : ∃ line rest, newline ∉ line ∧ (∀ byte ∈ rest.head?, byte = newline) ∧
      input = line ++ rest ∧ input.takeWhile (· ≠ newline) = line ∧ input.dropWhile (· ≠ newline) = rest := by
    refine ⟨_, _, fun member => ?_, fun byte member => ?_, (List.takeWhile_append_dropWhile ..).symm, rfl, rfl⟩
    · simpa using List.mem_takeWhile_imp member
    · have found := List.head?_dropWhile_not (· ≠ newline) input
      rw [Option.mem_def.mp member] at found
      simpa using found
  obtain ⟨rfl, takes, drops⟩ := same
  have clean {front : List UInt8} (part : front ⊆ line) (absent : eofChar ∉ front) : Clean front := by
    rintro byte member (rfl | rfl)
    · exact whole (part member)
    · exact absent member
  simp only [nextLine, takes, drops]
  split
  · rename_i member
    obtain ⟨front, back, split, fresh⟩ := List.eq_append_cons_of_mem member
    have part : front ⊆ line := fun byte inside =>
      List.mem_of_mem_take (split ▸ List.mem_append_left _ inside : byte ∈ line.take (inputBufferSize + 1))
    have short : front.length ≤ inputBufferSize := by
      have count := congrArg List.length split
      rw [List.length_take, List.length_append, List.length_cons] at count
      omega
    rw [← List.take_append_drop (inputBufferSize + 1) line, split, List.append_assoc, List.append_assoc]
    exact .eof (clean part fresh) short
  · rename_i absent
    split
    · rename_i long
      have full : (line.take (inputBufferSize + 1)).length = inputBufferSize + 1 := by
        rw [List.length_take]
        exact Nat.min_eq_left long
      have front := clean (List.take_subset _ _) absent
      have back : newline ∉ line.drop (inputBufferSize + 1) := fun member => whole (List.mem_of_mem_drop member)
      rw [← List.take_append_drop (inputBufferSize + 1) line, List.append_assoc]
      cases rest with
      | nil =>
          rw [List.append_nil]
          exact .endless front full back
      | cons byte rest =>
          cases stops byte rfl
          exact .tooLong front full back
    · rename_i short
      have small := Nat.not_lt.mp short
      rw [List.take_of_length_le (Nat.le_succ_of_le small)] at absent
      cases rest with
      | nil =>
          rw [List.append_nil]
          exact .atEnd (clean (fun _ => id) absent) small
      | cons byte rest =>
          cases stops byte rfl
          exact .text (clean (fun _ => id) absent) small

section Lines

variable {world : World} {input line rest output buffer : List UInt8} {calls : List Call} {room rounds : Nat} {byte : UInt8}

theorem charOfInt_toNat (byte : UInt8) : charOfInt byte.toNat = byte := by
  have small := byte.toNat_lt
  rw [charOfInt]
  apply UInt8.toNat.inj
  rw [UInt8.toNat_ofNat']
  omega

theorem Clean.tail (clean : Clean (byte :: line)) : Clean line :=
  fun other member => clean other (List.mem_cons_of_mem _ member)

theorem run_getchar : getchar.run (userMeaning consoleMeaning world) (⟨byte :: rest, output⟩, calls) =
    some ((byte.toNat : Int), (⟨rest, output⟩, calls)) := rfl

theorem run_getchar_end : getchar.run (userMeaning consoleMeaning world) (⟨[], output⟩, calls) =
    some (eof, (⟨[], output⟩, calls)) := rfl

theorem run_readChars_cons (clean : ¬ (byte = newline ∨ byte = eofChar)) :
    (readChars (room + 1) buffer).run (userMeaning consoleMeaning world) (⟨byte :: rest, output⟩, calls) =
      (readChars room (buffer ++ [byte])).run (userMeaning consoleMeaning world) (⟨rest, output⟩, calls) := by
  rw [readChars, run_bind, run_getchar]
  simp only [Option.bind_some, charOfInt_toNat, if_neg clean]

theorem run_readChars_append (clean : Clean line) (fits : line.length ≤ room) :
    (readChars room buffer).run (userMeaning consoleMeaning world) (⟨line ++ rest, output⟩, calls) =
      (readChars (room - line.length) (buffer ++ line)).run (userMeaning consoleMeaning world) (⟨rest, output⟩, calls) := by
  induction line generalizing room buffer with
  | nil => rw [List.append_nil]; rfl
  | cons byte line ih =>
      obtain ⟨room, rfl⟩ := Nat.exists_eq_add_of_le' ((Nat.le_add_left ..).trans fits)
      have step := @run_readChars_cons world (line ++ rest) output buffer calls room byte (clean byte List.mem_cons_self)
      rw [List.length_cons] at fits
      rw [List.cons_append, step, ih clean.tail (by omega), List.append_assoc, List.length_cons,
        Nat.add_sub_add_right]
      rfl

theorem run_readChars_stop (stops : byte = newline ∨ byte = eofChar) :
    (readChars (room + 1) buffer).run (userMeaning consoleMeaning world) (⟨byte :: rest, output⟩, calls) =
      some (buffer ++ [byte], (⟨rest, output⟩, calls)) := by
  rw [readChars, run_bind, run_getchar]
  simp only [Option.bind_some, charOfInt_toNat, if_pos stops]
  rfl

theorem run_readChars_end : (readChars (room + 1) buffer).run (userMeaning consoleMeaning world) (⟨[], output⟩, calls) =
    some (buffer ++ [eofChar], (⟨[], output⟩, calls)) := by
  have stops : charOfInt eof = newline ∨ charOfInt eof = eofChar := .inr rfl
  rw [readChars, run_bind, run_getchar_end]
  simp only [Option.bind_some, if_pos stops]
  rfl

theorem toNat_newline : ((byte.toNat : Int) = newline.toNat) ↔ byte = newline := by
  rw [Int.ofNat_inj]
  exact UInt8.toNat_inj

theorem run_discard (short : line.length < rounds) (whole : newline ∉ line) :
    (discard rounds).run (userMeaning consoleMeaning world) (⟨line ++ newline :: rest, output⟩, calls) =
      some ((), (⟨rest, output⟩, calls)) := by
  induction line generalizing rounds with
  | nil =>
      obtain ⟨rounds, rfl⟩ := Nat.exists_eq_add_of_le' (Nat.one_le_of_lt short)
      rfl
  | cons byte line ih =>
      obtain ⟨rounds, rfl⟩ := Nat.exists_eq_add_of_le' (Nat.one_le_of_lt short)
      obtain ⟨other, later⟩ := List.ne_and_not_mem_of_not_mem_cons whole
      rw [List.cons_append, discard, run_bind, run_getchar]
      simp only [Option.bind_some, toNat_newline, if_neg (Ne.symm other)]
      exact ih (Nat.lt_of_succ_lt_succ short) later

/-- Without a line feed the rest of a line that is too long does not end. -/
theorem run_discard_endless (whole : newline ∉ line) :
    (discard rounds).run (userMeaning consoleMeaning world) (⟨line, output⟩, calls) = none := by
  induction rounds generalizing line with
  | zero => rfl
  | succ rounds ih =>
      rw [discard, run_bind]
      cases line with
      | nil => exact ih whole
      | cons byte line =>
          obtain ⟨other, later⟩ := List.ne_and_not_mem_of_not_mem_cons whole
          rw [run_getchar]
          simp only [Option.bind_some, toNat_newline, if_neg (Ne.symm other)]
          exact ih later

theorem run_readInput_exited {chars left : List UInt8}
    (ran : (readChars (inputBufferSize + 1) []).run (userMeaning consoleMeaning world) (⟨input, output⟩, calls) =
      some (chars ++ [eofChar], (⟨left, output⟩, calls))) :
    (readInput rounds).run (userMeaning consoleMeaning world) (⟨input, output⟩, calls) =
      some (.exited, (⟨left, output⟩, calls)) := by
  rw [readInput, run_bind, ran]
  simp only [Option.bind_some, List.getLast?_concat, if_true]
  rfl

theorem run_readInput_text (clean : Clean line) (short : line.length ≤ inputBufferSize) :
    (readInput rounds).run (userMeaning consoleMeaning world) (⟨line ++ newline :: rest, output⟩, calls) =
      some (.success (line ++ [0]), (⟨rest, output⟩, calls)) := by
  have room : inputBufferSize + 1 - line.length = inputBufferSize - line.length + 1 := Nat.succ_sub short
  have other : ¬ (some newline = some eofChar) := by decide
  have last : (line ++ [newline])[line.length]? = some newline := List.getElem?_concat_length ..
  have kept : ¬ (line.length = inputBufferSize ∧ some newline ≠ some newline) := fun both => both.2 rfl
  rw [readInput, run_bind, run_readChars_append clean (Nat.le_succ_of_le short), room, run_readChars_stop (.inl rfl)]
  simp only [Option.bind_some, List.nil_append, List.getLast?_concat, if_neg other, List.length_append,
    List.length_singleton, Nat.add_sub_cancel, last, if_neg kept]
  rw [List.set_append_right _ _ le_rfl, Nat.sub_self]
  rfl

/-- When the buffer is full the rest of the line is thrown away. -/
theorem run_readInput_full (clean : Clean line) (full : line.length = inputBufferSize + 1) :
    (readInput rounds).run (userMeaning consoleMeaning world) (⟨line ++ rest, output⟩, calls) =
      ((discard rounds).run (userMeaning consoleMeaning world) (⟨rest, output⟩, calls)).bind fun (_, state) =>
        some (.tooLong, state) := by
  obtain ⟨body, last, rfl⟩ : ∃ body last, line = body ++ [last] :=
    (List.eq_nil_or_concat' line).resolve_left (by rintro rfl; cases full)
  have shut := clean last (List.mem_append_right _ (List.mem_singleton_self _))
  have notEof : ¬ (some last = some eofChar) := fun same => shut (.inr (Option.some.inj same))
  have bodyLength : body.length = inputBufferSize := by
    rw [List.length_append] at full
    exact Nat.succ.inj full
  have found : (body ++ [last])[inputBufferSize]? = some last := bodyLength ▸ List.getElem?_concat_length ..
  have longer : True ∧ some last ≠ some newline := ⟨trivial, fun same => shut (.inl (Option.some.inj same))⟩
  rw [readInput, run_bind, run_readChars_append clean full.le, full, Nat.sub_self, readChars]
  simp only [Prog.run, Option.bind_some, List.nil_append, List.getLast?_concat, if_neg notEof, full, Nat.add_sub_cancel, found,
    if_pos longer]
  rw [run_bind]
  rfl

/-- What `read_input` makes of the first line. -/
theorem run_readInput_ended (first : nextLine input = .ended) : ∃ left, ∀ output,
    (readInput rounds).run (userMeaning consoleMeaning world) (⟨input, output⟩, calls) =
      some (.exited, (⟨left, output⟩, calls)) := by
  have begins := begins_nextLine input
  rw [first] at begins
  cases begins with
  | @eof line after clean short =>
      refine ⟨after, fun output => @run_readInput_exited world _ output calls rounds line after ?_⟩
      rw [run_readChars_append clean (Nat.le_succ_of_le short), Nat.succ_sub short, run_readChars_stop (.inr rfl)]
      rfl
  | atEnd clean short =>
      refine ⟨[], fun output => @run_readInput_exited world input output calls rounds input [] ?_⟩
      have read := @run_readChars_append world input [] output [] calls (inputBufferSize + 1) clean (Nat.le_succ_of_le short)
      rw [List.append_nil] at read
      rw [read, Nat.succ_sub short, run_readChars_end]
      rfl

theorem run_readInput_line (first : nextLine input = .text line rest) :
    (readInput rounds).run (userMeaning consoleMeaning world) (⟨input, output⟩, calls) =
      some (.success (line ++ [0]), (⟨rest, output⟩, calls)) := by
  have begins := begins_nextLine input
  rw [first] at begins
  cases begins with
  | text clean short => exact run_readInput_text clean short

theorem run_readInput_tooLong (first : nextLine input = .tooLong rest) (enough : input.length ≤ rounds) :
    (readInput rounds).run (userMeaning consoleMeaning world) (⟨input, output⟩, calls) =
      some (.tooLong, (⟨rest, output⟩, calls)) := by
  have begins := begins_nextLine input
  rw [first] at begins
  cases begins with
  | @tooLong line more _ clean full whole =>
      rw [List.length_append, List.length_append, List.length_cons] at enough
      have short : more.length < rounds := by omega
      rw [run_readInput_full clean full, run_discard short whole]
      rfl

theorem run_readInput_endless (first : nextLine input = .endless) :
    (readInput rounds).run (userMeaning consoleMeaning world) (⟨input, output⟩, calls) = none := by
  have begins := begins_nextLine input
  rw [first] at begins
  cases begins with
  | endless clean full whole =>
      rw [run_readInput_full clean full, run_discard_endless whole]
      rfl

end Lines

/-! ## The dialogue -/

/-- What the shell is asked for on a line. -/
inductive Command where
  | exit
  | call (call : Call)
  | invalidInput
  | invalidCommand

/-- The command of a line; what stands behind its last argument is ignored, and so is the line from a zero byte on. -/
def command (line : List UInt8) : Command :=
  if cString line = ascii "exit" then .exit
  else
    match words (cString line) with
    | [] => .invalidInput
    | name :: arguments =>
        if name = ascii "get" then
          match arguments with
          | key :: _ => .call (.get key)
          | [] => .invalidInput
        else if name = ascii "set" then
          match arguments with
          | key :: value :: _ => .call (.set key value)
          | _ => .invalidInput
        else if name = ascii "del" then
          match arguments with
          | key :: _ => .call (.del key)
          | [] => .invalidInput
        else .invalidCommand

/-- The answer to a call. -/
def printed (contents : Contents) : Call → List UInt8
  | .get key =>
      match contents key with
      | some found => found ++ ascii "\n"
      | none => ascii "(not found)\n"
  | _ => ascii "OK\n"

namespace Command

/-- The calls of a command. -/
def calls : Command → List Call
  | .call made => [made]
  | _ => []

/-- The answer to a command. -/
def prints (contents : Contents) : Command → List UInt8
  | .exit => ascii "bye~\n"
  | .call made => printed contents made
  | .invalidInput => ascii "Invalid input.\n"
  | .invalidCommand => ascii "Invalid command.\n"

end Command

/-- The shell's side of a dialogue: the input, the calls before it, the output, the end and the calls after it. -/
inductive Dialogue (world : World) : List UInt8 → List Call → List UInt8 → Ending → List Call → Prop where
  | ended {input : List UInt8} {calls : List Call} (first : nextLine input = .ended) :
      Dialogue world input calls (ascii "myjql> ") .exited calls
  | exit {input line rest : List UInt8} {calls : List Call} (first : nextLine input = .text line rest)
      (asked : command line = .exit) :
      Dialogue world input calls (ascii "myjql> " ++ Command.exit.prints (world.answer calls)) .returned calls
  | tooLong {input rest output : List UInt8} {ending : Ending} {calls calls' : List Call}
      (first : nextLine input = .tooLong rest) (later : Dialogue world rest calls output ending calls') :
      Dialogue world input calls (ascii "myjql> " ++ (ascii "Input is too long.\n" ++ output)) ending calls'
  | line {input line rest output : List UInt8} {ending : Ending} {calls calls' : List Call}
      (first : nextLine input = .text line rest) (goes : command line ≠ .exit)
      (later : Dialogue world rest (calls ++ (command line).calls) output ending calls') :
      Dialogue world input calls (ascii "myjql> " ++ ((command line).prints (world.answer calls) ++ output)) ending calls'

/-! ## The shell is a dialogue -/

section Shell

variable {world : World} {input text line rest output word : List UInt8} {calls : List Call} {rounds : Nat}

theorem sublist_of_mem_splitOnP (member : word ∈ text.splitOnP isSpace) : word.Sublist text := by
  induction text generalizing word with
  | nil =>
      cases List.mem_singleton.mp member
      exact .refl _
  | cons byte text ih =>
      rw [List.splitOnP_cons_eq_if_modifyHead] at member
      obtain ⟨head, tail, split⟩ := List.exists_cons_of_ne_nil (List.splitOnP_ne_nil isSpace text)
      split at member
      · rcases List.mem_cons.mp member with rfl | later
        · exact List.nil_sublist _
        · exact (ih later).cons _
      · rw [split, List.modifyHead_cons] at member
        rw [split] at ih
        rcases List.mem_cons.mp member with rfl | later
        · exact (ih List.mem_cons_self).cons_cons _
        · exact (ih (List.mem_cons_of_mem _ later)).cons _

/-- A word of a line can be a key or a value. -/
theorem proper_word (member : word ∈ words (cString line)) (short : line.length ≤ inputBufferSize) :
    word ≠ [] ∧ word.length ≤ maxStrLen ∧ 0 ∉ word := by
  obtain ⟨inside, some⟩ := List.mem_filter.mp member
  have sub := sublist_of_mem_splitOnP inside
  refine ⟨of_decide_eq_true some, (sub.length_le.trans (List.takeWhile_prefix _).length_le).trans short, fun zero => ?_⟩
  simpa using List.mem_takeWhile_imp (sub.subset zero)

/-- The words that are assigned after the name of a command. -/
theorem sscanf_arguments {name : List UInt8} {arguments : List (List UInt8)} (split : words text = name :: arguments) :
    sscanf [.word] text = [name] ∧ sscanf [.skip, .word] text = arguments.take 1 ∧
      sscanf [.skip, .word, .word] text = arguments.take 2 := by
  simp only [sscanf_eq, split]
  refine ⟨rfl, ?_, ?_⟩
  · cases arguments <;> rfl
  · obtain _ | ⟨first, _ | ⟨second, rest⟩⟩ := arguments <;> rfl

theorem run_printf {bytes : List UInt8} : (printf bytes).run (userMeaning consoleMeaning world) (⟨input, output⟩, calls) =
    some ((), (⟨input, output ++ bytes⟩, calls ++ [])) := by
  rw [List.append_nil]
  rfl

theorem run_client {call : Call} {console : Console} : (client call).run (userMeaning consoleMeaning world) (console, calls) =
    some (call.reply (world.answer calls), (console, calls ++ call.request.call.toList)) := rfl

theorem run_runGet {key : List UInt8} (scan : sscanf [.skip, .word] text = [key])
    (short : key.length ≤ maxStrLen) : (runGet text).run (userMeaning consoleMeaning world) (⟨input, output⟩, calls) =
      some ((), (⟨input, output ++ printed (world.answer calls) (.get key)⟩, calls ++ [.get key])) := by
  simp only [runGet, scan]
  rw [run_bind, run_client]
  simp only [Call.reply, Call.request, Request.call, if_pos short, Option.bind_some, Option.toList_some, printed]
  cases world.answer calls key <;> rfl

theorem run_runSet {key value : List UInt8} (scan : sscanf [.skip, .word, .word] text = [key, value])
    (short : key.length ≤ maxStrLen) (small : value.length ≤ maxStrLen) :
    (runSet text).run (userMeaning consoleMeaning world) (⟨input, output⟩, calls) =
      some ((), (⟨input, output ++ printed (world.answer calls) (.set key value)⟩, calls ++ [.set key value])) := by
  simp only [runSet, scan]
  rw [run_bind, run_client]
  simp only [Call.reply, Call.request, Request.call, if_pos short, if_pos small, if_pos (And.intro short small)]
  rfl

theorem run_runDel {key : List UInt8} (scan : sscanf [.skip, .word] text = [key]) (short : key.length ≤ maxStrLen) :
    (runDel text).run (userMeaning consoleMeaning world) (⟨input, output⟩, calls) =
      some ((), (⟨input, output ++ printed (world.answer calls) (.del key)⟩, calls ++ [.del key])) := by
  simp only [runDel, scan]
  rw [run_bind, run_client]
  simp only [Call.reply, Call.request, Request.call, if_pos short]
  rfl

/-- A line that is not `exit` is answered as its command. -/
theorem run_runLine (goes : command line ≠ .exit) (short : line.length ≤ inputBufferSize) :
    (runLine (cString line)).run (userMeaning consoleMeaning world) (⟨input, output⟩, calls) =
      some ((), (⟨input, output ++ (command line).prints (world.answer calls)⟩, calls ++ (command line).calls)) := by
  have proper {word : List UInt8} (member : word ∈ words (cString line)) := (proper_word member short).2.1
  by_cases isExit : cString line = ascii "exit"
  · exact absurd (if_pos isExit) goes
  rw [command, if_neg isExit]
  cases split : words (cString line) with
  | nil =>
      have scan : sscanf [.word] (cString line) = [] := by
        rw [sscanf_eq, split]
        rfl
      simp only [runLine, scan]
      exact run_printf
  | cons name arguments =>
      obtain ⟨scanName, scanOne, scanTwo⟩ := sscanf_arguments split
      rw [split] at proper
      simp only [runLine, scanName]
      by_cases isGet : name = ascii "get"
      · simp only [if_pos isGet]
        cases arguments with
        | nil =>
            simp only [runGet, scanOne]
            exact run_printf
        | cons key rest => exact run_runGet scanOne (proper (by simp))
      by_cases isSet : name = ascii "set"
      · simp only [if_neg isGet, if_pos isSet]
        obtain _ | ⟨key, _ | ⟨value, rest⟩⟩ := arguments
        · simp only [runSet, scanTwo]
          exact run_printf
        · simp only [runSet, scanTwo]
          exact run_printf
        · exact run_runSet scanTwo (proper (by simp)) (proper (by simp))
      by_cases isDel : name = ascii "del"
      · simp only [if_neg isGet, if_neg isSet, if_pos isDel]
        cases arguments with
        | nil =>
            simp only [runDel, scanOne]
            exact run_printf
        | cons key rest => exact run_runDel scanOne (proper (by simp))
      · simp only [if_neg isGet, if_neg isSet, if_neg isDel]
        exact run_printf

/-- A line takes at least its line feed from the input. -/
theorem nextLine_shorter : (∀ line rest, nextLine input = .text line rest → rest.length < input.length) ∧
    ∀ rest, nextLine input = .tooLong rest → rest.length < input.length := by
  have begins := begins_nextLine input
  refine ⟨fun line rest first => ?_, fun rest first => ?_⟩
  · rw [first] at begins
    cases begins with
    | text clean short => simp only [List.length_append, List.length_cons]; omega
  · rw [first] at begins
    cases begins with
    | tooLong clean full whole => simp only [List.length_append, List.length_cons]; omega

theorem line_short (first : nextLine input = .text line rest) : line.length ≤ inputBufferSize := by
  have begins := begins_nextLine input
  rw [first] at begins
  cases begins with
  | text clean short => exact short

theorem cString_concat_zero : cString (line ++ [0]) = cString line := by
  rw [cString, List.takeWhile_append]
  split
  · rename_i whole
    rw [List.takeWhile_cons_of_neg (by decide), List.append_nil]
    exact ((List.takeWhile_prefix _).eq_of_length whole).symm
  · rfl

/-- The prompt and the reading of a line. -/
theorem run_prompt {result : InputResult} {left : List UInt8} {next : InputResult → ShellProg Ending}
    (read : ∀ before, (readInput rounds).run (userMeaning consoleMeaning world) (⟨input, before⟩, calls) =
      some (result, (⟨left, before⟩, calls))) :
    (do printf (ascii "myjql> ")
        next (← readInput rounds)).run (userMeaning consoleMeaning world) (⟨input, output⟩, calls) =
      (next result).run (userMeaning consoleMeaning world) (⟨left, output ++ ascii "myjql> "⟩, calls) := by
  rw [run_bind, run_printf, Option.bind_some, run_bind, List.append_nil, read]
  rfl

theorem run_shell_ended (first : nextLine input = .ended) : ∃ left, ∀ output,
    (shell (rounds + 1)).run (userMeaning consoleMeaning world) (⟨input, output⟩, calls) =
      some (.exited, (⟨left, output ++ ascii "myjql> "⟩, calls)) := by
  obtain ⟨left, read⟩ := @run_readInput_ended world input calls rounds first
  exact ⟨left, fun output => run_prompt read⟩

theorem command_exit (asked : command line = .exit) : cString line = ascii "exit" := by
  by_contra other
  rw [command, if_neg other] at asked
  repeat' split at asked
  all_goals cases asked

theorem run_shell_exit (first : nextLine input = .text line rest) (asked : command line = .exit) :
    (shell (rounds + 1)).run (userMeaning consoleMeaning world) (⟨input, output⟩, calls) =
      some (.returned, (⟨rest, output ++ (ascii "myjql> " ++ Command.exit.prints (world.answer calls))⟩, calls)) := by
  rw [shell, run_prompt fun before => run_readInput_line first]
  simp only [cString_concat_zero, if_pos (command_exit asked)]
  rw [← List.append_assoc]
  rfl

theorem run_shell_line (first : nextLine input = .text line rest) (goes : command line ≠ .exit) :
    (shell (rounds + 1)).run (userMeaning consoleMeaning world) (⟨input, output⟩, calls) =
      (shell rounds).run (userMeaning consoleMeaning world)
        (⟨rest, output ++ (ascii "myjql> " ++ (command line).prints (world.answer calls))⟩, calls ++ (command line).calls) := by
  have notExit : ¬ cString line = ascii "exit" := fun isExit => goes (if_pos isExit)
  rw [shell, run_prompt fun before => run_readInput_line first]
  simp only [cString_concat_zero, if_neg notExit]
  rw [run_bind, run_runLine goes (line_short first), List.append_assoc]
  rfl

theorem run_shell_tooLong (first : nextLine input = .tooLong rest) (enough : input.length ≤ rounds) :
    (shell (rounds + 1)).run (userMeaning consoleMeaning world) (⟨input, output⟩, calls) =
      (shell rounds).run (userMeaning consoleMeaning world)
        (⟨rest, output ++ (ascii "myjql> " ++ ascii "Input is too long.\n")⟩, calls) := by
  rw [shell, run_prompt fun before => run_readInput_tooLong first enough, run_bind, run_printf, List.append_nil,
    List.append_assoc]
  rfl

theorem run_shell_endless (first : nextLine input = .endless) :
    (shell rounds).run (userMeaning consoleMeaning world) (⟨input, output⟩, calls) = none := by
  cases rounds with
  | zero => rfl
  | succ rounds =>
      rw [shell, run_bind, run_printf, Option.bind_some, run_bind, run_readInput_endless first]
      rfl

/-- A dialogue is what the shell does with enough rounds. -/
theorem Dialogue.run {ending : Ending} {calls' : List Call} (dialogue : Dialogue world input calls output ending calls')
    (enough : input.length < rounds) (before : List UInt8) : ∃ left,
      (shell rounds).run (userMeaning consoleMeaning world) (⟨input, before⟩, calls) =
        some (ending, (⟨left, before ++ output⟩, calls')) := by
  obtain ⟨rounds, rfl⟩ := Nat.exists_eq_add_of_le' (Nat.one_le_of_lt enough)
  induction dialogue generalizing rounds before with
  | ended first =>
      obtain ⟨left, ran⟩ := @run_shell_ended world _ _ rounds first
      exact ⟨left, ran before⟩
  | exit first asked => exact ⟨_, run_shell_exit first asked⟩
  | tooLong first later ih =>
      have fewer := (nextLine_shorter.2 _ first).trans_le (Nat.le_of_lt_succ enough)
      obtain ⟨rounds, rfl⟩ := Nat.exists_eq_add_of_le' (Nat.one_le_of_lt fewer)
      obtain ⟨left, ran⟩ := ih (before ++ (ascii "myjql> " ++ ascii "Input is too long.\n")) rounds fewer
      refine ⟨left, ?_⟩
      rw [run_shell_tooLong first (Nat.le_of_lt_succ enough), ran, List.append_assoc, List.append_assoc]
  | line first goes later ih =>
      have fewer := (nextLine_shorter.1 _ _ first).trans_le (Nat.le_of_lt_succ enough)
      obtain ⟨rounds, rfl⟩ := Nat.exists_eq_add_of_le' (Nat.one_le_of_lt fewer)
      obtain ⟨left, ran⟩ := ih (before ++ (ascii "myjql> " ++ _)) rounds fewer
      refine ⟨left, ?_⟩
      rw [run_shell_line first goes, ran, List.append_assoc, List.append_assoc]

/-- What the shell does is a dialogue. -/
theorem dialogue_of_run {ending : Ending} {calls' : List Call} {console : Console} {before : List UInt8}
    (enough : input.length < rounds)
    (ran : (shell rounds).run (userMeaning consoleMeaning world) (⟨input, before⟩, calls) =
      some (ending, (console, calls'))) :
    ∃ output, console.output = before ++ output ∧ Dialogue world input calls output ending calls' := by
  induction rounds generalizing input calls before with
  | zero => cases ran
  | succ rounds ih =>
      cases first : nextLine input with
      | ended =>
          obtain ⟨left, ends⟩ := @run_shell_ended world input calls rounds first
          rw [ends] at ran
          cases ran
          exact ⟨_, rfl, .ended first⟩
      | endless =>
          rw [run_shell_endless first] at ran
          cases ran
      | tooLong rest =>
          rw [run_shell_tooLong first (Nat.le_of_lt_succ enough)] at ran
          obtain ⟨output, printed, later⟩ := ih ((nextLine_shorter.2 _ first).trans_le (Nat.le_of_lt_succ enough)) ran
          rw [List.append_assoc, List.append_assoc] at printed
          exact ⟨_, printed, .tooLong first later⟩
      | text line rest =>
          by_cases goes : command line = .exit
          · rw [run_shell_exit first goes] at ran
            cases ran
            exact ⟨_, rfl, .exit first goes⟩
          · rw [run_shell_line first goes] at ran
            obtain ⟨output, printed, later⟩ :=
              ih ((nextLine_shorter.1 _ _ first).trans_le (Nat.le_of_lt_succ enough)) ran
            rw [List.append_assoc, List.append_assoc] at printed
            exact ⟨_, printed, .line first goes later⟩

/-- Three lines for the shell. -/
def script : List UInt8 := ascii "set k v\nget k\nexit\n"

end Shell

end MyJQL.System
