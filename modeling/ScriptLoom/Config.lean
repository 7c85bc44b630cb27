import ScriptLoom.Action
import ScriptLoom.CommandLine
import ScriptLoom.Json.Reader

/-!
# Configuration

The settings of a run. They come from a JSON file, in which every field may be left out, and the
command line has the last word.
-/

namespace ScriptLoom

/-- The settings of a run. -/
structure Config where
  colors : Bool
  logLevel : Text
  /-- The program of the compiler. -/
  compiler : Path
  /-- The program of the packager. -/
  packager : Path
  /-- A catalog written in JSON. -/
  catalog : Option Path
  /-- A library to mine. -/
  library : Option Path
  /-- Where artifacts go; else beside their scripts. -/
  outDir : Option Path
  verbose : Bool
  keepSources : Bool
  keepClasses : Bool
  deriving DecidableEq, Repr

namespace Config

/-- The configuration file that is looked for when none is named. -/
def defaultFile : Path := "autoscript.json"

/-- The settings without a configuration file. -/
def default : Config where
  colors := true
  logLevel := "warn"
  compiler := "javac"
  packager := "jar"
  catalog := none
  library := none
  outDir := none
  verbose := false
  keepSources := false
  keepClasses := false

/-- The names of the fields in a configuration file, in order. -/
def fieldNames : List Text :=
  ["colors", "log_level", "javac", "jar", "catalog", "library", "out_dir", "verbose", "keep_java",
   "keep_classes"]

/-- Reads the settings from a JSON value. -/
def ofJson? (json : Json) : Option Config := do
  let field ← json.record? fieldNames true
  let path? := Json.nullable? Json.text?
  return {
    colors := ← Json.optional? Json.bool? default.colors (field "colors")
    logLevel := ← Json.optional? Json.text? default.logLevel (field "log_level")
    compiler := ← Json.optional? Json.text? default.compiler (field "javac")
    packager := ← Json.optional? Json.text? default.packager (field "jar")
    catalog := ← Json.optional? path? default.catalog (field "catalog")
    library := ← Json.optional? path? default.library (field "library")
    outDir := ← Json.optional? path? default.outDir (field "out_dir")
    verbose := ← Json.optional? Json.bool? default.verbose (field "verbose")
    keepSources := ← Json.optional? Json.bool? default.keepSources (field "keep_java")
    keepClasses := ← Json.optional? Json.bool? default.keepClasses (field "keep_classes") }

/-- The settings that a JSON text describes. -/
def ofText (text : Text) : Except Failure Config :=
  match (Json.ofText? text).bind ofJson? with
  | some config => .ok config
  | none => .error (.of .malformedJson)

/-- The settings in a configuration file. -/
def ofFile (path : Path) : Action Config := do
  let text ← Action.readText path
  Action.during (.parsingConfig path) (.ofExcept (ofText text))

/-- The settings with those of a command line on top: flags switch things on, values replace
others. -/
def apply (config : Config) (line : CommandLine) : Config :=
  { config with
    colors := config.colors && !line.has .noColors
    catalog := (line.get? .catalog).or config.catalog
    library := (line.get? .library).or config.library
    outDir := (line.get? .outDir).or config.outDir
    verbose := config.verbose || line.has .verbose
    keepSources := config.keepSources || line.has .generate || line.has .generateSources
    keepClasses := config.keepClasses || line.has .generate || line.has .generateClasses }

/-- The settings, if both tools are named. -/
def check (config : Config) : Except Failure Config :=
  if config.compiler = [] then .error (.of .compilerNotNamed)
  else if config.packager = [] then .error (.of .packagerNotNamed)
  else .ok config

/-- The settings of a run. -/
def resolve (line : CommandLine) : Action Config := do
  let config ← match line.get? .config with
    | some path => ofFile path
    | none =>
      if ← Action.isFile defaultFile then ofFile defaultFile else pure default
  .ofExcept (config.apply line).check

/-- What is legal but probably not meant. -/
def warnings (config : Config) : List Text :=
  if config.catalog.isSome && config.library.isSome then
    ["both a catalog and a library are configured; the catalog wins"]
  else []

/-- Whether the directory of a build outlives it. -/
def keepsOutput (config : Config) : Bool :=
  config.keepSources || config.keepClasses

end Config

end ScriptLoom
