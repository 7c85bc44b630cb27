import ScriptLoom.Build
import ScriptLoom.Catalog.Bundled
import ScriptLoom.Catalog.Json
import ScriptLoom.Text.Plain

/-!
# Sessions

A whole run of the program: the command line is read, the configuration and the catalog are
loaded, and the scripts are built one after the other until one is not built.
-/

namespace ScriptLoom

/-- The catalog of a configuration: a JSON catalog wins over a library, and a library over the
bundled one. -/
def Config.loadCatalog (config : Config) : Action Catalog :=
  match config.catalog, config.library with
  | some path, _ => do
    let text ← Action.readText path
    Action.during (.parsingCatalog path) (.ofExcept (Catalog.ofJson text))
  | none, some path => do
    let text ← Action.readText path
    Action.during (.miningLibrary path) (.ofExcept (Catalog.ofLibrary text))
  | none, none => .ofExcept Catalog.bundled

namespace Session

/-- Checks that the log level is a filter. Being verbose has a level of its own. -/
def checkLogLevel (config : Config) : Except Failure Unit :=
  if config.verbose then .ok ()
  else (LogFilter.check config.logLevel).mapError fun fault =>
    .of (.invalidLogLevel config.logLevel fault)

/-- Builds scripts one after the other. -/
def buildAll (b : Builder) : List Path → Action Unit
  | [] => return ()
  | script :: rest => do
    let outcome ← Action.during (.building script) (b.build script)
    if outcome = .rejected then throw (.of (.notBuilt script)) else buildAll b rest

/-- Does what a command line asks for. -/
def perform (line : CommandLine) : Action Unit := do
  let config ← Action.during .loadingConfiguration (Config.resolve line)
  .ofExcept (checkLogLevel config)
  let catalog ← Action.during .loadingCatalog config.loadCatalog
  buildAll ⟨config, catalog⟩ line.scripts

/-- How a session ends: its exit code, and what it writes about errors. -/
structure Ending where
  code : Nat
  errors : Text
  deriving DecidableEq, Repr

/-- Runs a session. -/
def run (arguments : List Text) : Dialogue Ending :=
  match CommandLine.ofArguments arguments with
  | .error halt =>
    let line := halt.message.plain ++ ['\n']
    if halt = .helpRequested ∨ halt = .versionRequested then
      .ask (.print line) fun _ => .done ⟨0, []⟩
    else .done ⟨2, line⟩
  | .ok line => do
    match ← (perform line).run with
    | .ok () => return ⟨0, []⟩
    | .error failure => return ⟨1, "Error: " ++ failure.report ++ ['\n']⟩

end Session

end ScriptLoom
