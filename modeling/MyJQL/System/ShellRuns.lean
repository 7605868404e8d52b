import MyJQL.System.ClientRuns
import MyJQL.System.ShellSpec

/-!
# Many shells

Shells whose input comes to an `exit` are clients, and what each of them prints is its dialogue
with the engine of one common history.
-/

namespace MyJQL.System

open Library Library.Prog Server Engine

/-! ## The calls of a shell -/

section Calls

variable {line text buffer word : List UInt8} {format : List Conversion} {room rounds : Nat}

theorem mem_words_of_sscanf (member : word ∈ sscanf format text) : word ∈ words text := by
  rw [sscanf_eq] at member
  obtain ⟨⟨conversion, found⟩, paired, assigned⟩ := List.mem_filterMap.mp member
  cases conversion with
  | skip => cases assigned
  | word =>
      cases assigned
      exact (List.of_mem_zip paired).2

/-- The text of a line, which fits into the buffer. -/
def FitsBuffer (text : List UInt8) : Prop := ∃ line : List UInt8, text = cString line ∧ line.length ≤ inputBufferSize

theorem FitsBuffer.proper (fits : FitsBuffer text) (member : word ∈ sscanf format text) :
    word ≠ [] ∧ word.length + 1 < 2 ^ 31 ∧ 0 ∉ word := by
  obtain ⟨line, rfl, short⟩ := fits
  obtain ⟨some, small, noZero⟩ := proper_word (mem_words_of_sscanf member) short
  exact ⟨some, lt_of_le_of_lt (Nat.succ_le_succ small) (by decide), noZero⟩

theorem meets_printf {bytes : List UInt8} : (printf bytes).Meets properCalls fun _ => True :=
  meets_perform trivial fun _ _ => trivial

theorem meets_getchar : getchar.Meets properCalls fun _ => True := meets_perform trivial fun _ _ => trivial

theorem meets_client {call : Call} (proper : Proper call) : (client call).Meets properCalls fun _ => True :=
  meets_perform proper fun _ _ => trivial

theorem meets_runGet (fits : FitsBuffer text) : (runGet text).Meets properCalls fun _ => True := by
  rw [runGet]
  split
  · rename_i key scan
    obtain ⟨someKey, shortKey, -⟩ := fits.proper (scan ▸ List.mem_singleton_self key)
    refine Meets.bind (meets_client ⟨someKey, shortKey⟩) fun reply _ => ?_
    split <;> exact meets_printf
  · exact meets_printf

theorem meets_runSet (fits : FitsBuffer text) : (runSet text).Meets properCalls fun _ => True := by
  rw [runSet]
  split
  · rename_i key value scan
    obtain ⟨someKey, shortKey, -⟩ := fits.proper (scan ▸ List.mem_cons_self : key ∈ sscanf _ text)
    have ofValue := fits.proper (scan ▸ List.mem_cons_of_mem _ (List.mem_singleton_self value))
    have proper : Proper (.set key value) := ⟨⟨someKey, shortKey⟩, ofValue⟩
    refine Meets.bind (meets_client proper) fun reply _ => ?_
    split <;> exact meets_printf
  · exact meets_printf

theorem meets_runDel (fits : FitsBuffer text) : (runDel text).Meets properCalls fun _ => True := by
  rw [runDel]
  split
  · rename_i key scan
    obtain ⟨someKey, shortKey, -⟩ := fits.proper (scan ▸ List.mem_singleton_self key)
    refine Meets.bind (meets_client ⟨someKey, shortKey⟩) fun reply _ => ?_
    split <;> exact meets_printf
  · exact meets_printf

theorem meets_runLine (fits : FitsBuffer text) : (runLine text).Meets properCalls fun _ => True := by
  rw [runLine]
  split
  · split
    · exact meets_runGet fits
    split
    · exact meets_runSet fits
    split
    · exact meets_runDel fits
    · exact meets_printf
  · exact meets_printf

theorem meets_readChars : (readChars room buffer).Meets properCalls fun chars => chars.length ≤ buffer.length + room := by
  induction room generalizing buffer with
  | zero => exact Nat.le_refl _
  | succ room ih =>
      refine Meets.bind meets_getchar fun c _ => ?_
      have longer : (buffer ++ [charOfInt c]).length = buffer.length + 1 := by
        rw [List.length_append, List.length_singleton]
      dsimp only
      split
      · exact longer.le.trans (Nat.add_le_add_left (Nat.le_add_left ..) _)
      · refine ih.mono fun chars fits => ?_
        omega

theorem meets_discard : (discard rounds).Meets properCalls fun _ => True := by
  induction rounds with
  | zero => trivial
  | succ rounds ih =>
      refine Meets.bind meets_getchar fun c _ => ?_
      split
      · trivial
      · exact ih

/-- The text in the buffer after `read_input`. -/
def InputResult.Fits : InputResult → Prop
  | .success buffer => FitsBuffer (cString buffer)
  | _ => True

theorem meets_readInput : (readInput rounds).Meets properCalls InputResult.Fits := by
  refine Meets.bind meets_readChars fun buffer fits => ?_
  dsimp only
  split
  · trivial
  split
  · exact Meets.bind meets_discard fun _ _ => trivial
  · change FitsBuffer _
    obtain rfl | ⟨line, last, rfl⟩ := List.eq_nil_or_concat' buffer
    · exact ⟨[], rfl, Nat.zero_le _⟩
    · rw [List.length_append, List.length_singleton, List.length_nil, Nat.zero_add] at fits
      refine ⟨line, ?_, Nat.le_of_succ_le_succ fits⟩
      rw [List.length_append, List.length_singleton, Nat.add_sub_cancel, List.set_append_right _ _ le_rfl, Nat.sub_self]
      exact cString_concat_zero

theorem meets_shell : (shell rounds).Meets properCalls fun _ => True := by
  induction rounds with
  | zero => trivial
  | succ rounds ih =>
      refine Meets.bind meets_printf fun _ _ => Meets.bind meets_readInput fun result fits => ?_
      cases result with
      | exited => trivial
      | tooLong => exact Meets.bind meets_printf fun _ _ => ih
      | success buffer =>
          dsimp only
          split
          · exact Meets.bind meets_printf fun _ _ => trivial
          · exact Meets.bind (meets_runLine fits) fun _ _ => ih

/-! ### How many there are -/

theorem within_printf {bytes : List UInt8} : (printf bytes).Within callWeight 0 := within_perform le_rfl

theorem within_client {call : Call} : (client call).Within callWeight 1 := within_perform le_rfl

theorem within_getchar : getchar.Within callWeight 0 := within_perform le_rfl

theorem within_readChars : (readChars room buffer).Within callWeight 0 := by
  induction room generalizing buffer with
  | zero => trivial
  | succ room ih =>
      refine Within.after within_getchar fun c => ?_
      dsimp only
      split
      · trivial
      · exact ih

theorem within_discard : (discard rounds).Within callWeight 0 := by
  induction rounds with
  | zero => trivial
  | succ rounds ih =>
      refine Within.after within_getchar fun c => ?_
      split
      · trivial
      · exact ih

theorem within_readInput : (readInput rounds).Within callWeight 0 := by
  refine Within.after within_readChars fun buffer => ?_
  dsimp only
  split
  · trivial
  split
  · exact Within.after within_discard fun _ => trivial
  · trivial

theorem within_runLine : (runLine text).Within callWeight 1 := by
  have answered {α : Type} {call : Call} {next : Reply → ShellProg α} (prints : ∀ reply, (next reply).Within callWeight 0) :
      (client call >>= next).Within callWeight 1 := Within.bind within_client prints
  have printed {bytes : List UInt8} : (printf bytes).Within callWeight 1 := within_printf.mono (Nat.zero_le _)
  rw [runLine]
  split
  · split
    · rw [runGet]
      split
      · refine answered fun reply => ?_
        split <;> exact within_printf
      · exact printed
    split
    · rw [runSet]
      split
      · refine answered fun reply => ?_
        split <;> exact within_printf
      · exact printed
    split
    · rw [runDel]
      split
      · refine answered fun reply => ?_
        split <;> exact within_printf
      · exact printed
    · exact printed
  · exact printed

/-- The shell makes at most one call for each line. -/
theorem within_shell : (shell rounds).Within callWeight rounds := by
  induction rounds with
  | zero => trivial
  | succ rounds ih =>
      refine Within.after within_printf fun _ => Within.after within_readInput fun result => ?_
      cases result with
      | exited => trivial
      | tooLong => exact Within.after within_printf fun _ => ih.mono (Nat.le_succ _)
      | success buffer =>
          dsimp only
          split
          · exact Within.after within_printf fun _ => trivial
          · exact (Within.bind within_runLine fun _ => ih).mono (Nat.add_comm 1 rounds).le

end Calls

/-! ## Shells as clients -/

/-- The input comes to a line `exit`. -/
inductive ComesToExit : List UInt8 → Prop where
  | exit {input line rest : List UInt8} (first : nextLine input = .text line rest) (asked : command line = .exit) :
      ComesToExit input
  | tooLong {input rest : List UInt8} (first : nextLine input = .tooLong rest) (later : ComesToExit rest) :
      ComesToExit input
  | line {input line rest : List UInt8} (first : nextLine input = .text line rest) (goes : command line ≠ .exit)
      (later : ComesToExit rest) : ComesToExit input

/-- `main` of the shell; after `exit` nothing is done any more. -/
def shellMain (rounds : Nat) : ShellProg Unit := do
  match ← shell rounds with
  | .returned => return
  | .exited => .fail

/-- A client that is a shell with this input. -/
structure User.IsShell (user : User ConsoleOp Console Unit) (input : List UInt8) : Prop where
  program : user.program = shellMain user.bound
  owned : user.owned = ⟨input, []⟩
  enough : input.length < user.bound
  exits : ComesToExit input

section Shells

variable {world : World} {input : List UInt8} {calls calls' : List Call} {rounds : Nat}
  {user : User ConsoleOp Console Unit}

theorem ComesToExit.dialogue (exits : ComesToExit input) (world : World) (calls : List Call) :
    ∃ output calls', Dialogue world input calls output .returned calls' := by
  induction exits generalizing calls with
  | exit first asked => exact ⟨_, _, .exit first asked⟩
  | tooLong first later ih =>
      obtain ⟨output, calls', dialogue⟩ := ih calls
      exact ⟨_, _, .tooLong first dialogue⟩
  | line first goes later ih =>
      obtain ⟨output, calls', dialogue⟩ := ih (calls ++ _)
      exact ⟨_, _, .line first goes dialogue⟩

theorem run_shellMain {console : Console} (enough : input.length < rounds)
    (ran : (shellMain rounds).run (userMeaning consoleMeaning world) (⟨input, []⟩, calls) = some ((), (console, calls'))) :
    Dialogue world input calls console.output .returned calls' := by
  rw [shellMain, run_bind] at ran
  obtain ⟨⟨ending, console', made⟩, first, last⟩ := Option.bind_eq_some_iff.mp ran
  cases ending with
  | returned =>
      cases last
      obtain ⟨output, printed, dialogue⟩ := dialogue_of_run enough first
      exact printed ▸ dialogue
  | exited => cases last

theorem User.IsShell.sound (shell : user.IsShell input) : user.Sound consoleMeaning := by
  refine ⟨?_, ?_, fun answers => ?_⟩
  · rw [shell.program]
    refine Meets.bind meets_shell fun ending _ => ?_
    cases ending <;> trivial
  · rw [shell.program]
    refine Within.bind within_shell fun ending => (?_ : Within callWeight _ 0)
    cases ending <;> trivial
  · obtain ⟨output, calls, dialogue⟩ := shell.exits.dialogue (recorded answers user.junk) []
    obtain ⟨left, ran⟩ := dialogue.run shell.enough []
    rw [User.view, shell.program, shell.owned, shellMain, run_bind, ran]
    exact Option.some_ne_none _

/-- A shell that is given the script. -/
def scripted : User ConsoleOp Console Unit where
  program := shellMain 20
  owned := ⟨script, []⟩
  bound := 20
  spare := 0
  memory _ := 0
  error := socketError
  junk _ _ := 0
  code := 0

theorem scripted_isShell : scripted.IsShell script := by
  have first : nextLine script = .text (ascii "set k v") (ascii "get k\nexit\n") := rfl
  have second : nextLine (ascii "get k\nexit\n") = .text (ascii "get k") (ascii "exit\n") := rfl
  have third : nextLine (ascii "exit\n") = .text (ascii "exit") [] := rfl
  have sets : command (ascii "set k v") = .call (.set (ascii "k") (ascii "v")) := rfl
  have gets : command (ascii "get k") = .call (.get (ascii "k")) := rfl
  exact ⟨rfl, rfl, by decide, .line first (sets ▸ nofun) (.line second (gets ▸ nofun) (.exit third rfl))⟩

end Shells

end MyJQL.System
