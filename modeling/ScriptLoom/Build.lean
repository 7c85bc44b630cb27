import ScriptLoom.Config
import ScriptLoom.Layout
import ScriptLoom.Program
import ScriptLoom.Terminal

/-!
# Building a script

A build reads a script, makes a program of it, compiles the units one after the other and packs
the classes into an artifact. A script with problems, or a unit with errors, is reported and
rejected. Whatever happens after the build directory was made, what is not to be kept is removed.
-/

namespace ScriptLoom

/-- How a build ends that does not fail. -/
inductive Outcome where
  | built (artifact : Path)
  | rejected
  deriving DecidableEq, Repr

/-- What builds share. -/
structure Builder where
  config : Config
  catalog : Catalog
  deriving DecidableEq, Repr

namespace Builder

/-- The terminal that a builder reports to. -/
def terminal (b : Builder) : Terminal := ⟨b.config.colors⟩

/-- The file of a unit in a directory. -/
def unitFile (directory : Path) (unitName : Text) : Path :=
  directory.child (unitName ++ ".java")

/-- Writes the source of a unit into a directory. -/
def writeUnit (directory : Path) (unit : NamedSource) : Action Unit :=
  Action.write (unitFile directory unit.name) (SourceUnit.endLine unit.source)

/-- Makes an empty directory for a build. -/
def prepare (layout : Layout) : Action Unit := do
  if ← Action.has layout.root then
    Action.during (.clearing layout.root) (Action.removeDirectory layout.root)
  Action.createDirectories layout.classes

/-- Writes all units of a program, the main unit first. -/
def writeSources (layout : Layout) (program : Program) : Action Unit :=
  Action.during .writingSources do
    Action.makeDirectories layout.sources
    writeUnit layout.sources program.mainUnit
    program.auxiliary.forM (writeUnit layout.sources)

/-- What the compiler has to say about a unit: its messages, and the failure that no message
tells of. -/
def messagesOf (program : Path) (reply : Reply) (source : Text) : List CompilerMessage :=
  let messages := CompilerMessage.read reply.errors source
  if reply.succeeded || messages.any (·.isError) then messages
  else messages ++ [⟨none, .error, reply.complaint program⟩]

/-- Compiles a unit. -/
def compileUnit (b : Builder) (layout : Layout) (unit : NamedSource) :
    Action (List CompilerMessage) :=
  Action.during (.compiling unit.name) do
    Action.createDirectories layout.sources
    Action.createDirectories layout.classes
    Action.during (.writingUnit unit.name) (writeUnit layout.sources unit)
    let call := Call.compile (unitFile layout.sources unit.name) layout.classes
    let reply ← Action.runProgram b.config.compiler call
    return messagesOf b.config.compiler reply unit.source

/-- Compiles units one after the other up to the first one with an error; whether there was
none. -/
def compileUnits (b : Builder) (layout : Layout) (locator : Locator) :
    List NamedSource → Action Bool
  | [] => return true
  | unit :: rest => do
    let messages ← b.compileUnit layout unit
    messages.forM fun m =>
      Action.print (b.terminal.showMessage (locator.locate unit.name unit.source m))
    if messages.any (·.isError) then return false
    else b.compileUnits layout locator rest

/-- Packs the classes of a build into its artifact. -/
def package (b : Builder) (layout : Layout) (className : Text) : Action Unit := do
  let packager := b.config.packager
  let reply ← Action.runProgram packager (.package layout.artifact className layout.classes)
  if reply.succeeded then
    Action.during (.reading layout.artifact) (Action.find layout.artifact)
    Action.during (.marking layout.artifact) (Action.markExecutable layout.artifact)
  else
    Action.during (.packaging layout.artifact)
      (throw (.of (.packagingFailed (.error .packaging 0 (reply.complaint packager)))))

/-- Removes what a build does not keep. -/
def cleanUp (b : Builder) (layout : Layout) : Action Unit := do
  if layout.temporary then Action.removeQuietly layout.root
  else
    unless b.config.keepSources do Action.removeQuietly layout.sources
    unless b.config.keepClasses do Action.removeQuietly layout.classes

/-- Compiles and packs a program in its prepared directory; whether there was no error. -/
def makeArtifact (b : Builder) (layout : Layout) (locator : Locator) (program : Program) :
    Action Bool := do
  let compiled ← b.compileUnits layout locator program.units
  if compiled then b.package layout program.className
  return compiled

/-- Builds a script into a layout. -/
def buildInto (b : Builder) (script : Path) (layout : Layout) : Action Outcome := do
  let fileName := script.fileName?.getD []
  let text ← Action.readText script
  match Program.ofScript text fileName b.catalog with
  | .error problems =>
    Action.print (b.terminal.showDiagnostics fileName text problems)
    return .rejected
  | .ok program =>
    prepare layout
    if b.config.keepSources then writeSources layout program
    let locator := Locator.mk fileName text program.className
    let made ← (b.makeArtifact layout locator program).attempt
    b.cleanUp layout
    if ← Action.ofExcept made then
      Action.print (b.terminal.showSuccess layout.artifact)
      return .built layout.artifact
    else return .rejected

/-- Builds a script. -/
def build (b : Builder) (script : Path) : Action Outcome := do
  let className ← Action.ofExcept script.scriptClass
  let base := Layout.baseFor script b.config.outDir
  b.buildInto script (.of base className b.config.keepsOutput)

end Builder

end ScriptLoom
