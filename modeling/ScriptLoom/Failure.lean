import ScriptLoom.Diagnostic
import ScriptLoom.LogFilter
import ScriptLoom.Path

/-!
# Failures

A failure is what ends a run without a report on the script: a file that cannot be read, a
catalog that makes no sense, a tool that does not start. It consists of a cause and of what was
being done, outermost activity first.
-/

namespace ScriptLoom

/-- Why an operation on files or programs fails. -/
inductive SystemError where
  | notFound
  | notPermitted
  | alreadyExists
  | notADirectory
  | isADirectory
  | nameTooLong
  /-- An executable file that cannot be run. -/
  | notAProgram
  | invalidText
  | nulInPath
  | nulInCommand
  /-- Whatever else a system reports, in its own words. -/
  | other (words : Text)
  deriving DecidableEq, Repr

/-- The words for a system error. -/
def SystemError.message : SystemError → Text
  | .notFound => "No such file or directory (os error 2)"
  | .notPermitted => "Permission denied (os error 13)"
  | .alreadyExists => "File exists (os error 17)"
  | .notADirectory => "Not a directory (os error 20)"
  | .isADirectory => "Is a directory (os error 21)"
  | .nameTooLong => "File name too long (os error 36)"
  | .notAProgram => "Exec format error (os error 8)"
  | .invalidText => "stream did not contain valid UTF-8"
  | .nulInPath => "file name contained an unexpected NUL byte"
  | .nulInCommand => "nul byte found in provided data"
  | .other words => words

/-- What is being done when a failure happens. -/
inductive Activity where
  | loadingConfiguration
  | loadingCatalog
  | reading (path : Path)
  | parsingConfig (path : Path)
  | parsingCatalog (path : Path)
  | miningLibrary (path : Path)
  | miningBundledLibrary
  | building (script : Path)
  | clearing (directory : Path)
  | creating (directory : Path)
  | writingSources
  | compiling (unitName : Text)
  | writingUnit (unitName : Text)
  | running (program : Path)
  | packaging (artifact : Path)
  | marking (artifact : Path)
  deriving DecidableEq, Repr

/-- The words for an activity. -/
def Activity.message : Activity → Text
  | .loadingConfiguration => "Loading configuration"
  | .loadingCatalog => "Loading the library catalog"
  | .reading path => "Reading " ++ path
  | .parsingConfig path => "Parsing config " ++ path
  | .parsingCatalog path => "Parsing catalog " ++ path
  | .miningLibrary path => "Mining library " ++ path
  | .miningBundledLibrary => "Mining the bundled library"
  | .building script => "Building " ++ script
  | .clearing directory => "Clearing " ++ directory
  | .creating directory => "Creating " ++ directory
  | .writingSources => "Writing generated sources"
  | .compiling unitName => "Compiling " ++ unitName
  | .writingUnit unitName => "Writing " ++ unitName ++ ".java"
  | .running program => "Running " ++ program
  | .packaging artifact => "Packaging " ++ artifact
  | .marking artifact => "Marking " ++ artifact ++ " executable"

/-- Why a run fails. -/
inductive Cause where
  | system (error : SystemError)
  /-- A text that is no JSON, or JSON of another shape than expected. -/
  | malformedJson
  | emptyFunctionName (index : Nat)
  | unnamedDeclaration (index : Nat) (text : Text)
  | notAnImport (line : Text)
  /-- A library function that runs to the end of the library. -/
  | openFunction (name : Text) (line : Nat)
  | compilerNotNamed
  | packagerNotNamed
  | invalidLogLevel (level : Text) (fault : LogFilter.Fault)
  | notAScript (path : Path)
  | nameWithoutLetter (name : Text)
  | nameWithBlank (name : Text)
  | packagingFailed (diagnostic : Diagnostic)
  | notBuilt (script : Path)
  deriving DecidableEq, Repr

/-- The words for a cause. -/
def Cause.message : Cause → Text
  | .system error => error.message
  | .malformedJson => "malformed JSON"
  | .emptyFunctionName index => "function " ++ Text.ofNat index ++ " has an empty `name`"
  | .unnamedDeclaration index text =>
    "declaration " ++ Text.ofNat index ++ " has no name: `" ++ text ++ "`"
  | .notAnImport line => "not an import line: `" ++ line ++ "`"
  | .openFunction name line =>
    "function `" ++ name ++ "` on line " ++ Text.ofNat line ++ " is never closed"
  | .compilerNotNamed => "`javac` must name an executable"
  | .packagerNotNamed => "`jar` must name an executable"
  | .invalidLogLevel level fault => "Invalid log level `" ++ level ++ "`: " ++ fault.message
  | .notAScript path => path ++ " is not a .auto script"
  | .nameWithoutLetter name => "Script name \"" ++ name ++ "\" must start with a letter"
  | .nameWithBlank name => "Script name \"" ++ name ++ "\" cannot contain whitespace"
  | .packagingFailed diagnostic => diagnostic.display
  | .notBuilt script => script ++ " was not built"

/-- A cause with the activities during which it arose, outermost first. -/
structure Failure where
  activities : List Activity
  cause : Cause
  deriving DecidableEq, Repr

namespace Failure

/-- A failure during no activity. -/
def of (cause : Cause) : Failure := ⟨[], cause⟩

/-- A failure during one more activity. -/
def during (activity : Activity) (failure : Failure) : Failure :=
  { failure with activities := activity :: failure.activities }

/-- The words for a failure, outermost activity first and the cause last. -/
def messages (failure : Failure) : List Text :=
  failure.activities.map Activity.message ++ [failure.cause.message]

/-- A failure on one line. -/
def message (failure : Failure) : Text :=
  Text.join ": " failure.messages

/-- A message under a heading: its first line after a margin, the others below it. -/
def indented (margin : Text) (message : Text) : Text :=
  let below := '\n' :: List.replicate margin.length ' '
  '\n' :: margin ++ Text.join below (message.splitOn '\n')

/-- The margin of the cause with a given number; a single cause has no number. -/
def causeMargin (single : Bool) (number : Nat) : Text :=
  if single then List.replicate 4 ' '
  else
    let digits := Text.ofNat number
    List.replicate (5 - digits.length) ' ' ++ digits ++ ": "

/-- A failure for the user: the outermost message, and below it what it was caused by. -/
def report (failure : Failure) : Text :=
  match failure.messages with
  | [] => []
  | [only] => only
  | outermost :: causes =>
    let single := causes.length == 1
    outermost ++ "\n\nCaused by:"
      ++ causes.zipIdx.flatMap fun (message, number) => indented (causeMargin single number) message

end Failure

end ScriptLoom
