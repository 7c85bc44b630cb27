import ScriptLoom.Failure

/-!
# Actions

An action is a dialogue with the system that the program runs on: it asks for one thing after the
other, each time goes on with the answer, and ends with a value or a failure. What it was granted
before it failed stays done. What a system answers is not said here.
-/

namespace ScriptLoom

/-- A call of one of the two programs that a build needs. -/
inductive Call where
  /-- Compiles a source file into a directory of classes. -/
  | compile (source classes : Path)
  /-- Packs a directory of classes into an artifact that starts with a class. -/
  | package (artifact : Path) (mainClass : Text) (classes : Path)
  deriving DecidableEq, Repr

/-- The arguments that a call passes to its program. -/
def Call.arguments : Call → List Text
  | .compile source classes => ["-d", classes, "-cp", classes, "-encoding", "UTF-8", source]
  | .package artifact mainClass classes =>
    ["--create", "--file", artifact, "--main-class", mainClass, "-C", classes, "."]

/-- How a program that was started ends. -/
structure Reply where
  exit : Nat
  errors : Text
  deriving DecidableEq, Repr

namespace Reply

/-- Whether a program reports success. -/
def succeeded (reply : Reply) : Bool :=
  reply.exit == 0

/-- The words for a program that failed. -/
def complaint (reply : Reply) (program : Path) : Text :=
  program ++ " failed (exit status: " ++ Text.ofNat reply.exit ++ "): " ++ reply.errors.trim

end Reply

/-- What a system can be asked for. -/
inductive Request where
  /-- Whether a path names something. -/
  | has (path : Path)
  /-- Whether a path names a file. -/
  | isFile (path : Path)
  | readText (path : Path)
  | write (path : Path) (text : Text)
  /-- Makes a directory and those that it lies in. -/
  | createDirectories (path : Path)
  /-- Removes a directory and all in it. -/
  | removeDirectory (path : Path)
  /-- Fails if a path names nothing. -/
  | find (path : Path)
  | markExecutable (path : Path)
  /-- Runs a program to its end. -/
  | run (program : Path) (call : Call)
  | print (text : Text)
  deriving DecidableEq, Repr

/-- What a system answers a request with. -/
abbrev Request.Answer : Request → Type
  | .has _ | .isFile _ => Bool
  | .readText _ => Except SystemError Text
  | .run _ _ => Except SystemError Reply
  | .print _ => Unit
  | .write _ _ | .createDirectories _ | .removeDirectory _ | .find _ | .markExecutable _ =>
    Except SystemError Unit

/-- A computation that asks a system for things. -/
inductive Dialogue (α : Type) where
  | done (result : α)
  | ask (request : Request) (next : request.Answer → Dialogue α)

namespace Dialogue

variable {α β : Type}

/-- A dialogue and then one that depends on its result. -/
def bind : Dialogue α → (α → Dialogue β) → Dialogue β
  | .done result, rest => rest result
  | .ask request next, rest => .ask request fun answer => (next answer).bind rest

instance : Monad Dialogue where
  pure := .done
  bind := .bind

end Dialogue

/-- A dialogue that may fail. -/
abbrev Action := ExceptT Failure Dialogue

namespace Action

variable {α : Type}

/-- Asks for one thing. -/
def ask (request : Request) : Action request.Answer :=
  ExceptT.lift (.ask request .done)

/-- An action as a part of an activity, which its failures name. -/
def during (activity : Activity) (action : Action α) : Action α :=
  action.adapt (Failure.during activity)

/-- The value of a result, or its failure. -/
def ofExcept (result : Except Failure α) : Action α :=
  ExceptT.mk (pure result)

/-- The outcome of an action, be it a value or a failure. -/
def attempt (action : Action α) : Action (Except Failure α) :=
  ExceptT.lift action.run

/-- The value that a system answers with, or its error as a failure. -/
def ofAnswer (answer : Except SystemError α) : Action α :=
  ofExcept (answer.mapError fun error => .of (.system error))

/-- Whether a path names something. -/
def has (path : Path) : Action Bool :=
  ask (.has path)

/-- Whether a path names a file. -/
def isFile (path : Path) : Action Bool :=
  ask (.isFile path)

/-- The text of a file. -/
def readText (path : Path) : Action Text :=
  during (.reading path) do
    ofAnswer (← ask (.readText path))

/-- Writes a file. -/
def write (path : Path) (text : Text) : Action Unit := do
  ofAnswer (← ask (.write path text))

/-- Makes a directory and those that it lies in. -/
def makeDirectories (path : Path) : Action Unit := do
  ofAnswer (← ask (.createDirectories path))

/-- Makes a directory and those that it lies in, as an activity of its own. -/
def createDirectories (path : Path) : Action Unit :=
  during (.creating path) (makeDirectories path)

/-- Removes a directory and all in it. -/
def removeDirectory (path : Path) : Action Unit := do
  ofAnswer (← ask (.removeDirectory path))

/-- Removes a directory that may not be there. That this fails is no failure. -/
def removeQuietly (path : Path) : Action Unit := do
  if ← has path then
    let _ ← ask (.removeDirectory path)

/-- Fails if a path names nothing. -/
def find (path : Path) : Action Unit := do
  ofAnswer (← ask (.find path))

/-- Makes a file executable. -/
def markExecutable (path : Path) : Action Unit := do
  ofAnswer (← ask (.markExecutable path))

/-- Runs a program to its end. -/
def runProgram (program : Path) (call : Call) : Action Reply :=
  during (.running program) do
    ofAnswer (← ask (.run program call))

/-- Prints a text and ends its line. -/
def print (text : Text) : Action Unit :=
  ask (.print (text ++ ['\n']))

end Action

end ScriptLoom
