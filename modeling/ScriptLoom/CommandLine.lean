import ScriptLoom.Path

/-!
# The command line

Scripts to build, flags that switch something on and settings that take a value. Short flags can
be written together, the value of a setting follows it or an equals sign, and after `--` all that
follows are scripts.

A setting waits for its value, and scripts are gathered, until something else is recognised; only
then are they checked and taken over. What is not recognised at all is reported before anything
that is still waiting.
-/

namespace ScriptLoom

/-- What can be switched on. -/
inductive Flag where
  | verbose
  | generate
  | generateSources
  | generateClasses
  | noColors
  deriving DecidableEq, Repr

/-- What can be given a value. -/
inductive Setting where
  | catalog
  | library
  | config
  | outDir
  deriving DecidableEq, Repr

/-- What can be written without a value. -/
inductive Switch where
  | flag (flag : Flag)
  | help
  | version
  deriving DecidableEq, Repr

namespace Switch

/-- The switches with their long names. -/
def longNames : List (Text × Switch) :=
  [("verbose", .flag .verbose), ("generate", .flag .generate),
   ("generate-java", .flag .generateSources), ("generate-class", .flag .generateClasses),
   ("no-colors", .flag .noColors), ("help", .help), ("version", .version)]

/-- The switch of a short name. -/
def ofShort? (c : Char) : Option Switch :=
  match c with
  | 'v' => some (.flag .verbose)
  | 'g' => some (.flag .generate)
  | 'h' => some .help
  | 'V' => some .version
  | _ => none

/-- A switch as messages name it. -/
def shown (switch : Switch) : Text :=
  match longNames.find? (·.2 = switch) with
  | some (name, _) => "--" ++ name
  | none => []

end Switch

namespace Setting

/-- The settings with their long names and the words for their values. -/
def longNames : List (Text × Setting × Text) :=
  [("catalog", .catalog, "JSON"), ("library", .library, "JAVA"), ("config", .config, "JSON"),
   ("out-dir", .outDir, "DIR")]

/-- The setting of a long name. -/
def ofLong? (name : Text) : Option Setting :=
  (longNames.lookup name).map (·.1)

/-- A setting as messages name it. -/
def shown (setting : Setting) : Text :=
  match longNames.find? (·.2.1 = setting) with
  | some (name, _, value) => "--" ++ name ++ " <" ++ value ++ ">"
  | none => []

end Setting

/-- Why the reading of a command line ends early. -/
inductive Halt where
  | unknownArgument (written : Text)
  | valueRequired (argument : Text)
  | unexpectedValue (value argument : Text)
  | repeated (argument : Text)
  | scriptsRequired
  | helpRequested
  | versionRequested
  deriving DecidableEq, Repr

/-- The words for an early end. -/
def Halt.message : Halt → Text
  | .unknownArgument written => "error: unexpected argument '" ++ written ++ "' found"
  | .valueRequired argument =>
    "error: a value is required for '" ++ argument ++ "' but none was supplied"
  | .unexpectedValue value argument =>
    "error: unexpected value '" ++ value ++ "' for '" ++ argument
      ++ "' found; no more were expected"
  | .repeated argument => "error: the argument '" ++ argument ++ "' cannot be used multiple times"
  | .scriptsRequired =>
    "error: the following required arguments were not provided:\n  <SCRIPTS>..."
  | .helpRequested => "Usage: autoscript [OPTIONS] <SCRIPTS>..."
  | .versionRequested => "autoscript 0.1.0"

/-- What a command line asks for. -/
structure CommandLine where
  scripts : List Path
  flags : List Flag
  settings : List (Setting × Path)
  deriving DecidableEq, Repr

namespace CommandLine

/-- The command line that asks for nothing. -/
def empty : CommandLine := ⟨[], [], []⟩

/-- Whether a flag is given. -/
def has (line : CommandLine) (flag : Flag) : Bool :=
  line.flags.contains flag

/-- The value of a setting. -/
def get? (line : CommandLine) (setting : Setting) : Option Path :=
  line.settings.lookup setting

/-- What is read but not yet taken over. -/
inductive Pending where
  | nothing
  | setting (setting : Setting) (value : Option Text)
  | scripts (paths : List Path)
  deriving DecidableEq, Repr

/-- Takes over the value of a setting. -/
def assign (line : CommandLine) (setting : Setting) (value : Path) : Except Halt CommandLine :=
  if (line.get? setting).isSome then .error (.repeated setting.shown)
  else if value = [] then .error (.valueRequired setting.shown)
  else .ok { line with settings := line.settings ++ [(setting, value)] }

/-- Takes over what is pending. -/
def settle (line : CommandLine) : Pending → Except Halt CommandLine
  | .nothing => .ok line
  | .setting setting none => .error (.valueRequired setting.shown)
  | .setting setting (some value) => line.assign setting value
  | .scripts paths =>
    if paths.contains [] then .error (.valueRequired "<SCRIPTS>...")
    else .ok { line with scripts := line.scripts ++ paths }

/-- Follows a switch. -/
def press (line : CommandLine) : Switch → Except Halt CommandLine
  | .flag flag =>
    if line.has flag then .error (.repeated (Switch.flag flag).shown)
    else .ok { line with flags := line.flags ++ [flag] }
  | .help => .error .helpRequested
  | .version => .error .versionRequested

/-- Follows short switches written together, after taking over what is pending. -/
def pressShorts (line : CommandLine) (pending : Pending) :
    Text → Except Halt (CommandLine × Pending)
  | [] => .ok (line, pending)
  | c :: rest =>
    match Switch.ofShort? c with
    | none => .error (.unknownArgument ['-', c])
    | some switch => do
      let line ← (← line.settle pending).press switch
      line.pressShorts .nothing rest

/-- Reads an argument after its two dashes. -/
def readLong (line : CommandLine) (pending : Pending) (argument : Text) :
    Except Halt (CommandLine × Pending) :=
  let (name, value) := match argument.cutAt? '=' with
    | some (name, value) => (name, some value)
    | none => (argument, none)
  match Switch.longNames.lookup name, Setting.ofLong? name with
  | some switch, _ =>
    match value with
    | some value => .error (.unexpectedValue value switch.shown)
    | none => do return (← (← line.settle pending).press switch, .nothing)
  | none, some setting => do
    let line ← line.settle pending
    match value with
    | some value => return (← line.assign setting value, .nothing)
    | none => return (line, .setting setting none)
  | none, none => .error (.unknownArgument ("--" ++ name))

/-- Reads a script. -/
def readScript (line : CommandLine) (pending : Pending) (argument : Text) :
    Except Halt (CommandLine × Pending) :=
  match pending with
  | .scripts paths => .ok (line, .scripts (paths ++ [argument]))
  | _ => do return (← line.settle pending, .scripts [argument])

/-- Reads an argument that is no `--`. -/
def readArgument (line : CommandLine) (pending : Pending) (argument : Text) :
    Except Halt (CommandLine × Pending) :=
  match argument with
  | '-' :: '-' :: long => line.readLong pending long
  | '-' :: c :: shorts => line.pressShorts pending (c :: shorts)
  | _ =>
    match pending with
    | .setting setting none => .ok (line, .setting setting (some argument))
    | _ => line.readScript pending argument

/-- Reads the arguments that are left; `scriptsOnly` says that only scripts follow. -/
def readFrom (line : CommandLine) (pending : Pending) (scriptsOnly : Bool) :
    List Text → Except Halt CommandLine
  | [] => do
    let line ← line.settle pending
    if line.scripts = [] then .error .scriptsRequired else return line
  | argument :: rest =>
    if scriptsOnly then do
      let (line, pending) ← line.readScript pending argument
      line.readFrom pending true rest
    else if argument = ['-', '-'] then line.readFrom pending true rest
    else do
      let (line, pending) ← line.readArgument pending argument
      line.readFrom pending false rest

/-- Reads a command line. -/
def ofArguments (arguments : List Text) : Except Halt CommandLine :=
  empty.readFrom .nothing false arguments

end CommandLine

end ScriptLoom
