import ScriptLoom.Path
import ScriptLoom.Location

/-!
# Reports

What the user reads: diagnostics with their source lines, moved compiler messages and the success
of a build. The first line of a report is coloured by its severity when colours are on.
-/

namespace ScriptLoom

/-- How reports are written. -/
structure Terminal where
  colors : Bool
  deriving DecidableEq, Repr

namespace Terminal

/-- The start of a coloured text. -/
def escape (code : Text) : Text :=
  "\x1b[" ++ code ++ "m"

/-- The colour of a severity. -/
def colorOf : Severity → Text
  | .error => "31"
  | .warning => "33"
  | .note => "1"

/-- A text in a colour. -/
def colored (r : Terminal) (color text : Text) : Text :=
  if r.colors then escape color ++ text ++ escape "0" else text

/-- A report with its first line coloured. -/
def coloredFirstLine (r : Terminal) (severity : Severity) (block : Text) : Text :=
  match block.cutAt? '\n' with
  | some (first, rest) => r.colored (colorOf severity) first ++ '\n' :: rest
  | none => r.colored (colorOf severity) block ++ ['\n']

/-- Every diagnostic with its source line, then their number. -/
def showDiagnostics (r : Terminal) (fileName source : Text) (ds : Diagnostics) : Text :=
  let block (d : Diagnostic) : Text :=
    r.coloredFirstLine d.severity (d.inSource fileName source) ++ "\n\n"
  ds.toList.flatMap block ++ r.colored "1" ds.summary

/-- A moved compiler message. -/
def showMessage (r : Terminal) (m : Located) : Text :=
  r.coloredFirstLine m.diagnostic.severity m.display ++ ['\n']

/-- The success of a build. -/
def showSuccess (r : Terminal) (artifact : Path) : Text :=
  r.colored "32" "Built" ++ " " ++ artifact

end Terminal

end ScriptLoom
