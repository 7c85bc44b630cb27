import ScriptLoom.Identifier
import ScriptLoom.Keyword

/-!
# Names in declaration lines

What single lines of a script or of a library declare: functions, fields, imports and globals.
-/

namespace ScriptLoom

namespace Text

/-- The name before the first parenthesis of a function header. -/
def headerName? (header : Text) : Option Text := do
  let (before, _) ← header.cutAt? '('
  let name := before.lastRun
  if name = [] then none else some name

/-- A text given from its end, without the bracket pairs `[]` there. -/
def dropArrayMarks : Text → Text
  | ']' :: '[' :: t => dropArrayMarks t
  | t => t

/-- The name that a field line declares. -/
def fieldName? (line : Text) : Option Text := do
  let declarator := (trim (line.takeWhile (· ≠ '='))).dropEndWhile (· = ';')
  let last ← declarator.words.getLast?
  let name := (dropArrayMarks last.reverse).reverse
  let first ← name.head?
  if first.isAlpha || first == '_' || first == '$' then some name else none

/-- The class that an import line brings in; a star for a whole package. -/
def classImported? (line : Text) : Option Text := do
  let (path, _) ← line.trim.cutAtLast? (· = ';')
  let (_, name) ← path.cutAtLast? (· = '.')
  return name.trim

/-- The words for the visibility of a member. -/
def visibilities : List Text :=
  ["public ", "private ", "protected "]

/-- The header of a member made static and put one tab deep. -/
def asStatic (line : Text) : Text :=
  let member := line.trim
  let unqualified (rest visibility : Text) : Text :=
    if rest.startsWith "static " then '\t' :: member else '\t' :: visibility ++ "static " ++ rest
  match visibilities.findSome? fun v => (dropPrefix? v member).map (unqualified · v) with
  | some header => header
  | none => unqualified member []

end Text

/-- A global variable as a `global` line declares it. -/
structure Global where
  type : Text
  name : Text
  /-- What stands after the equals sign, the semicolon included. -/
  initializer : Option Text
  deriving DecidableEq, Repr

/-- Reads a `global` line. -/
def Global.ofLine (line : Text) : Global :=
  let line := line.trim
  let rest := ((Text.dropPrefix? Keyword.global line).getD line).trim
  let (declarator, initializer) :=
    match rest.cutAt? '=' with
    | some (declarator, value) => (declarator.trim, some value.trim)
    | none => ((rest.dropEndWhile (· = ';')).trim, none)
  match declarator.cutAtLast? Text.isBlank with
  | some (type, name) => ⟨type.trim, name.trim, initializer⟩
  | none => ⟨[], declarator, initializer⟩

end ScriptLoom
