import ScriptLoom.Session
import ScriptLoom.Text.Utf8

/-!
# Running on a host

A session that has its dialogue with the file system and the terminal of a host. How a host starts
programs and changes access rights is for the host to say.
-/

namespace ScriptLoom

/-- The number that the operating system gives an error. -/
def systemCode? : IO.Error → Option UInt32
  | .alreadyExists _ code _ | .noFileOrDirectory _ code _ | .permissionDenied _ code _
  | .invalidArgument _ code _ | .resourceExhausted _ code _ | .inappropriateType _ code _
  | .noSuchThing _ code _ | .interrupted _ code _ => some code
  | .otherError code _ | .resourceBusy code _ | .resourceVanished code _
  | .unsupportedOperation code _ | .hardwareFault code _ | .unsatisfiedConstraints code _
  | .illegalOperation code _ | .protocolError code _ | .timeExpired code _ => some code
  | .unexpectedEof | .userError _ => none

/-- An error of the file system. Some operations give its number with the sign turned around. -/
def SystemError.ofIO (error : IO.Error) : SystemError :=
  match (systemCode? error).map fun code => min code (-code) with
  | some 2 => .notFound
  | some 8 => .notAProgram
  | some 13 => .notPermitted
  | some 17 => .alreadyExists
  | some 20 => .notADirectory
  | some 21 => .isADirectory
  | some 36 => .nameTooLong
  | _ => .other error.toString.toList

/-- What a host does by its own means. -/
structure Host where
  /-- Runs a program with arguments to its end, and gives its exit code and what it wrote about
  errors. -/
  run : Path → List Text → IO (Except SystemError (UInt32 × ByteArray))
  /-- Gives everybody the right to execute a file. -/
  markExecutable : Path → IO (Except SystemError Unit)

namespace Host

variable {α : Type}

/-- The result of an operation on a path, or its error as an answer. -/
def attempt (path : Path) (operation : String → IO α) : IO (Except SystemError α) := do
  if path.contains '\x00' then return .error .nulInPath
  return (← (operation (String.ofList path)).toBaseIO).mapError SystemError.ofIO

/-- What a path leads to. -/
def inspect (path : Path) : IO (Except SystemError IO.FS.Metadata) :=
  attempt path fun name => (System.mkFilePath [name]).metadata

/-- Makes the first of some directories, each of which lies in the next one, and those that it
needs. -/
def makeNested : List Path → IO (Except SystemError Unit)
  | [] => return .ok ()
  | path :: above => do
    let settled (error : SystemError) : IO (Except SystemError Unit) := do
      match ← inspect path with
      | .ok found => return if found.type matches .dir then .ok () else .error error
      | .error _ => return .error error
    match ← attempt path fun name => IO.FS.createDir name with
    | .ok () => return .ok ()
    | .error .notFound =>
      match ← makeNested above with
      | .error error => return .error error
      | .ok () =>
        match ← attempt path fun name => IO.FS.createDir name with
        | .ok () => return .ok ()
        | .error error => settled error
    | .error error => settled error

/-- The text that a file holds. -/
def decode (bytes : ByteArray) : Except SystemError Text :=
  match Utf8.decode? bytes.toList with
  | some text => .ok text
  | none => .error .invalidText

/-- The reply of a program that wrote some bytes about errors. -/
def replyOf (result : UInt32 × ByteArray) : Reply :=
  ⟨result.1.toNat, Utf8.decodeLossy result.2.toList⟩

/-- How a host answers a request. -/
def answer (host : Host) : (request : Request) → IO request.Answer
  | .has path => return (← inspect path).toBool
  | .isFile path => do
    match ← inspect path with
    | .ok found => return (found.type matches .file)
    | .error _ => return false
  | .readText path => return (← attempt path fun name => IO.FS.readBinFile name).bind decode
  | .write path text => attempt path fun name => IO.FS.writeFile name (String.ofList text)
  | .createDirectories path => makeNested path.ancestors
  | .removeDirectory path => attempt path fun name => IO.FS.removeDirAll name
  | .find path => return (← inspect path).map fun _ => ()
  | .markExecutable path => host.markExecutable path
  | .run program call => return (← host.run program call.arguments).map replyOf
  | .print text => IO.print (String.ofList text)

/-- Has a dialogue with a host. -/
def converse (host : Host) : Dialogue α → IO α
  | .done result => return result
  | .ask request next => do host.converse (next (← host.answer request))

/-- Runs a session and gives its exit code. -/
def runSession (host : Host) (arguments : List String) : IO UInt32 := do
  let ending ← host.converse (Session.run (arguments.map String.toList))
  IO.eprint (String.ofList ending.errors)
  return ending.code.toUInt32

end Host

end ScriptLoom
