import MyJQL.System.Driver

/-!
# The shell (`myjqlshell.cpp`)

The shell reads lines from standard input into a buffer of fixed size, picks words out of them
with `sscanf`, calls the driver, and prints on standard output. A `char` is a byte here, and
the byte 255 is the `char` that equals `EOF`.
-/

namespace MyJQL.System

open Library Library.Prog Server

/-! ## Standard input and output -/

inductive ConsoleOp : Type → Type where
  | getchar : ConsoleOp Int
  | printf (bytes : List UInt8) : ConsoleOp Unit

/-- What is left of standard input, and what has been printed. -/
structure Console where
  input : List UInt8
  output : List UInt8

/-- `EOF`. -/
def eof : Int := -1

/-- `getchar` returns `EOF` again and again at the end of the input. -/
def consoleMeaning : Meaning ConsoleOp Console
  | _, .getchar, console =>
      match console.input with
      | [] => some (eof, console)
      | byte :: rest => some ((byte.toNat : Int), ⟨rest, console.output⟩)
  | _, .printf bytes, console => some ((), ⟨console.input, console.output ++ bytes⟩)

abbrev ShellProg (α : Type) := UserProg ConsoleOp α

def getchar : ShellProg Int := perform (.left .getchar)

def printf (bytes : List UInt8) : ShellProg Unit := perform (.left (.printf bytes))

def client (call : Call) : ShellProg Reply := perform (.right (.call call))

def ascii (text : String) : List UInt8 := text.toList.map fun letter => letter.toNat.toUInt8

/-- `'\n'`. -/
def newline : UInt8 := 10

/-- `(char)c`. -/
def charOfInt (c : Int) : UInt8 := UInt8.ofNat (c % 256).toNat

/-- The `char` that equals `EOF`. -/
def eofChar : UInt8 := charOfInt eof

/-! ## Strings -/

/-- The string that starts at an array of `char`. -/
def cString (buffer : List UInt8) : List UInt8 := buffer.takeWhile (· ≠ 0)

/-- `isspace` in the C locale. -/
def isSpace (byte : UInt8) : Bool := byte == 32 || (9 ≤ byte && byte ≤ 13)

/-- The conversions that the shell uses: `%*s` and `%s`. -/
inductive Conversion where
  | skip
  | word

/--
The strings that `sscanf` assigns. A conversion skips white space and takes what is not white
space; the first one that finds nothing ends the scan.
-/
def sscanf : List Conversion → List UInt8 → List (List UInt8)
  | [], _ => []
  | conversion :: format, text =>
      match text.dropWhile isSpace with
      | [] => []
      | start =>
          let later := sscanf format (start.dropWhile fun byte => !isSpace byte)
          match conversion with
          | .skip => later
          | .word => start.takeWhile (fun byte => !isSpace byte) :: later

/-! ## Lines -/

/-- `INPUT_BUFFER_SIZE`. -/
abbrev inputBufferSize : Nat := 1024

/-- `InputResult`, with the text of `input_buffer`, and `exit(EXIT_SUCCESS)`. -/
inductive InputResult where
  | success (buffer : List UInt8)
  | tooLong
  | exited

/-- The first loop of `read_input`; the buffer has room for so many characters. -/
def readChars : Nat → List UInt8 → ShellProg (List UInt8)
  | 0, buffer => .pure buffer
  | room + 1, buffer => do
      let c ← getchar
      let buffer := buffer ++ [charOfInt c]
      if charOfInt c = newline ∨ charOfInt c = eofChar then return buffer
      else readChars room buffer

/-- `while (getchar() != '\n');`, which does not end at the end of the input. -/
def discard : Nat → ShellProg Unit
  | 0 => .fail
  | rounds + 1 => do
      let c ← getchar
      if c = newline.toNat then return
      else discard rounds

/-- `read_input`. -/
def readInput (rounds : Nat) : ShellProg InputResult := do
  let buffer ← readChars (inputBufferSize + 1) []
  if buffer.getLast? = some eofChar then return .exited
  else
    let length := buffer.length - 1
    if length = inputBufferSize ∧ buffer[length]? ≠ some newline then do
      discard rounds
      return .tooLong
    else return .success (buffer.set length 0)

/-! ## Commands -/

/-- `what()`. -/
def Failure.what : Failure → List UInt8
  | .systemError what _ => ascii what
  | .keyTooLong => ascii "key is too long"
  | .valueTooLong => ascii "value is too long"

/-- How the shell ends: `main` returns, or `exit` ends the process without the destructor of the client. -/
inductive Ending where
  | returned
  | exited

/-- `printf("Error: %s\n", e.what())`. -/
def printError (failure : Failure) : ShellProg Unit := printf (ascii "Error: " ++ Failure.what failure ++ ascii "\n")

/-- `printf("Invalid input.\n")`. -/
def invalidInput : ShellProg Unit := printf (ascii "Invalid input.\n")

def runGet (text : List UInt8) : ShellProg Unit :=
  match sscanf [.skip, .word] text with
  | [key] => do
      match ← client (.get key) with
      | .failed failure => printError failure
      | .value (some found) => printf (found ++ ascii "\n")
      | _ => printf (ascii "(not found)\n")
  | _ => invalidInput

def runSet (text : List UInt8) : ShellProg Unit :=
  match sscanf [.skip, .word, .word] text with
  | [key, value] => do
      match ← client (.set key value) with
      | .failed failure => printError failure
      | _ => printf (ascii "OK\n")
  | _ => invalidInput

def runDel (text : List UInt8) : ShellProg Unit :=
  match sscanf [.skip, .word] text with
  | [key] => do
      match ← client (.del key) with
      | .failed failure => printError failure
      | _ => printf (ascii "OK\n")
  | _ => invalidInput

/-- A line that is not `exit`. -/
def runLine (text : List UInt8) : ShellProg Unit :=
  match sscanf [.word] text with
  | [command] =>
      if command = ascii "get" then runGet text
      else if command = ascii "set" then runSet text
      else if command = ascii "del" then runDel text
      else printf (ascii "Invalid command.\n")
  | _ => invalidInput

/-- The loop of `main`. -/
def shell : Nat → ShellProg Ending
  | 0 => .fail
  | rounds + 1 => do
      printf (ascii "myjql> ")
      match ← readInput rounds with
      | .exited => return .exited
      | .tooLong => do
          printf (ascii "Input is too long.\n")
          shell rounds
      | .success buffer =>
          if cString buffer = ascii "exit" then do
            printf (ascii "bye~\n")
            return .returned
          else do
            runLine (cString buffer)
            shell rounds

end MyJQL.System
