import IntScript.Parse
import IntScript.Run

/-!
# The command line

The program takes the path of a file, runs what the file holds, and shows what that prints.

* `CommandLine.Input` : what was found at the path;
* `CommandLine.Reply` : the exit code and the two outputs;
* `CommandLine.reply` : the reply to an input;
* `CommandLine.respond` : the reply to the arguments of the command.
-/

namespace IntScript.CommandLine

/-- Why a file cannot be read. -/
inductive Unreadable where
  /-- There is no such file. -/
  | missing
  | directory
  /-- The bytes of the file are no text. -/
  | notText
  /-- Anything else, in the words of the system. -/
  | other (reason : String)

/-- The wording of a failure to read a file. -/
def Unreadable.message : Unreadable → String
  | .missing => "No such file or directory (os error 2)"
  | .directory => "Is a directory (os error 21)"
  | .notText => "stream did not contain valid UTF-8"
  | .other reason => reason

/-- What was found at the path. -/
inductive Input where
  /-- No path was given. -/
  | absent
  | unreadable (why : Unreadable)
  | content (bytes : ByteArray)

/-- The exit code and the two outputs. -/
structure Reply where
  code : UInt8
  stdout : String
  stderr : String
deriving DecidableEq

/-- The reply to a file that cannot be read. -/
def unreadableReply (why : Unreadable) : Reply :=
  ⟨1, "", "Ran into error while trying to open the file.\n" ++ why.message ++ "\n"⟩

/-- What the standard output shows. -/
def shown (c : Console) : String := (String.fromUTF8? c.stdout.accepted).getD ""

/-- Runs a program text; `none` for want of fuel. The terminal value of the program is not shown. -/
def runText (fuel : Nat) (source : String) : Option Reply :=
  match parse source with
  | .error e => some ⟨1, "", e.message ++ "\n"⟩
  | .ok b =>
    match runConsole fuel b with
    | .done _ s => some ⟨0, shown s.sink, ""⟩
    | .fault e s => some ⟨1, shown s.sink, "Runtime Error: " ++ e.message ++ "\n"⟩
    | .unfinished _ => none

/-- The reply to an input; `none` for want of fuel. -/
def reply (fuel : Nat) : Input → Option Reply
  | .absent => some ⟨1, "Please provide the path to a file.\n", ""⟩
  | .unreadable why => some (unreadableReply why)
  | .content bytes =>
    match String.fromUTF8? bytes with
    | none => some (unreadableReply .notText)
    | some source => runText fuel source

/-- The reply to arguments, where `read` says what is found at a path; `none` for want of fuel. The
path is the first argument, and the others are not looked at. -/
def respond {m : Type → Type} [Monad m] (fuel : Nat) (read : String → m Input)
    (args : List String) : m (Option Reply) := do
  match args with
  | [] => return reply fuel .absent
  | path :: _ => return reply fuel (← read path)

end IntScript.CommandLine
