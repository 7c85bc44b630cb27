import ScriptLoom.Bracket
import ScriptLoom.Catalog.Basic
import ScriptLoom.Failure

/-!
# Catalogs mined from a library

A library is one class. Its import lines stand outside all braces and its members one brace deep,
each starting on a line of its own with its visibility: a line that ends in a brace opens a
function, one that ends in a semicolon is a declaration. Constructors, nested types and the body
of a thread are no functions of the library.
-/

namespace ScriptLoom

namespace Mining

/-- A line of a library. -/
structure Line where
  number : Nat
  /-- The number of braces open at its start. -/
  depth : Nat
  /-- Whether it starts inside a comment. -/
  hidden : Bool
  text : Text
  /-- The library from the line on. -/
  tail : Text
  deriving DecidableEq, Repr

/-- The depth of braces after a code character. -/
def depthAfter (depth : Nat) (c : Char) : Nat :=
  if c = '{' then depth + 1 else if c = '}' then depth - 1 else depth

/-- The depth of braces after each line feed among pieces, and whether it stands inside a
comment. -/
def lineBeginnings (depth : Nat) : List Piece → List (Nat × Bool)
  | [] => []
  | .code c :: ps =>
    if c = '\n' then (depth, false) :: lineBeginnings depth ps
    else lineBeginnings (depthAfter depth c) ps
  | .region _ body _ :: ps =>
    List.replicate (body.count '\n') (depth, true) ++ lineBeginnings depth ps

/-- The lines of a library. -/
def linesOf (library : Text) : List Line :=
  let starts := (0, false) :: lineBeginnings 0 library.pieces
  ((library.numberedLines.zip starts).zip library.lineTails).map
    fun (((number, text), (depth, hidden)), tail) => ⟨number, depth, hidden, text, tail⟩

/-- Whether a line starts a member: it is one brace deep and begins with a visibility. -/
def Line.startsMember (line : Line) : Bool :=
  line.depth == 1 && !line.hidden
    && (line.text.trim.startsWith "public " || line.text.trim.startsWith "private ")

/-- Whether a header declares a type. -/
def declaresType (header : Text) : Bool :=
  header.words.any fun word =>
    (["class", "interface", "enum", "record"] : List String).any (·.toList == word)

/-- The name of the class that a library is, by its first line with a class name. -/
def className? (library : Text) : Option Text :=
  library.lines.findSome? fun line =>
    match line.words.dropWhile (· ≠ ("class" : Text)) with
    | _ :: name :: _ => some (Text.dropEndWhile (· = '{') name)
    | _ => none

/-- The width of the blanks at the start of a line; a tab is four wide. -/
def indentWidth (line : Text) : Nat :=
  (line.takeWhile Text.isBlank).foldl (fun width c => width + if c = '\t' then 4 else 1) 0

/-- The smallest positive number of a list, four if there is none. -/
def smallestStep (widths : List Nat) : Nat :=
  ((widths.filter (0 < ·)).min?).getD 4

/-- A line indented by tabs for a width counted in steps. -/
def indentedBy (step width : Nat) (line : Text) : Text :=
  '\t' :: List.replicate (width / step) '\t' ++ List.replicate (width % step) ' ' ++ line.trimStart

/-- Lines of a function body with tabs in place of their blanks, `base` being the width of the
header. The smallest indentation beyond it counts as one step. -/
def retab (base : Nat) (lines : List Text) : List Text :=
  let width (line : Text) : Nat := indentWidth line - base
  let step := smallestStep (lines.map width)
  lines.map fun line => indentedBy step (width line) line

/-- The text of a function, cut out from its header through its closing brace: static, without
comments and blank lines, indented by tabs. -/
def functionBody (block : Text) : Text :=
  match block.withoutComments.lines with
  | [] => []
  | header :: rest =>
    let body := rest.filter fun line => line.trim ≠ []
    Text.unlines (header.asStatic :: retab (indentWidth header) body)

/-- What a line contributes to a catalog. -/
inductive Member where
  | importLine (line : Text)
  | function (f : FunctionText)
  | declaration (d : Declaration)
  deriving DecidableEq, Repr

/-- The function of a library whose header is on a line. -/
def function? (className : Option Text) (line : Line) : Except Failure (Option Member) :=
  let header := line.text.trim
  if declaresType header then .ok none
  else
    match header.headerName? with
    | none => .ok none
    | some name =>
      if name.map Char.toLower = ("run" : Text) || some name == className then .ok none
      else
        match line.tail.cutBlock? with
        | none => .error (.of (.openFunction name line.number))
        | some (block, _) => .ok (some (.function ⟨name, functionBody block⟩))

/-- What a line of a library contributes to a catalog. -/
def member? (className : Option Text) (line : Line) : Except Failure (Option Member) :=
  let trimmed := line.text.trim
  if line.depth == 0 && trimmed.startsWith Keyword.imports && trimmed.endsWith [';'] then
    .ok (some (.importLine trimmed))
  else if !line.startsMember then .ok none
  else if trimmed.endsWith ['{'] then function? className line
  else if trimmed.endsWith [';'] then
    .ok (trimmed.fieldName?.map fun name => .declaration ⟨name, trimmed⟩)
  else .ok none

/-- The function of a member. -/
def Member.function? : Member → Option FunctionText
  | .function f => some f
  | _ => none

/-- The declaration of a member. -/
def Member.declaration? : Member → Option Declaration
  | .declaration d => some d
  | _ => none

/-- The import line of a member. -/
def Member.import? : Member → Option Text
  | .importLine line => some line
  | _ => none

end Mining

open Mining in
/-- The catalog of a library. -/
def Catalog.ofLibrary (library : Text) : Except Failure Catalog := do
  let found ← (linesOf library).mapM (member? (className? library))
  let members := found.filterMap id
  return .ofParts (members.filterMap Member.function?) (members.filterMap Member.declaration?)
    (members.filterMap Member.import?)

end ScriptLoom
