import ScriptLoom.Bracket
import ScriptLoom.Catalog.Basic
import ScriptLoom.Problem

/-!
# Scripts taken apart

A script is flat: imports, globals, functions and statements stand one after the other. Its lines
without comments and blanks around them are read into items, one per line but for a function,
which runs through the brace that closes it. The items give the parts of the script: a global
keeps a field of its own only if something else mentions it, and otherwise becomes a local of the
entry point.
-/

namespace ScriptLoom

/-- A script taken apart. -/
structure Script where
  imports : List Declaration
  globals : List Declaration
  functions : List FunctionText
  /-- The statements, indented for the entry point. -/
  entryBody : Text
  deriving DecidableEq, Repr

namespace Script

/-- One thing that a script consists of. -/
inductive Item where
  | importLine (line : Text)
  | globalLine (line : Text)
  /-- A function from after its keyword through its closing brace. -/
  | function (text : Text)
  | statement (text : Text)
  deriving DecidableEq, Repr

/-- The lines of a script that hold code, trimmed and with their numbers. -/
def codeLines (text : Text) : List (Nat × Text) :=
  (text.withoutComments.numberedLines.map fun (n, line) => (n, line.trim)).filter (·.2 ≠ [])

/-- The items of lines of code. A function that is not closed is reported on its line. -/
def itemsOfLines : List (Nat × Text) → Except Diagnostic (List Item)
  | [] => .ok []
  | (n, line) :: rest =>
    if line.startsWith Keyword.imports then do
      return .importLine line :: (← itemsOfLines rest)
    else if line.startsWith Keyword.global then do
      return .globalLine line :: (← itemsOfLines rest)
    else if line.startsWith Keyword.function then
      match (Text.unlines (line :: rest.map (·.2))).cutBlock? with
      | none => .error (Problem.openBrace.onLine n)
      | some (block, after) => do
        let trailing := Text.trim (after.takeWhile (· ≠ '\n'))
        let further ← itemsOfLines (rest.drop (block.count '\n'))
        let trailingItems := if trailing = [] then [] else [Item.statement trailing]
        return .function (block.drop Keyword.function.length) :: (trailingItems ++ further)
    else do
      return .statement line :: (← itemsOfLines rest)
termination_by lines => lines.length
decreasing_by all_goals simp only [List.length_cons, List.length_drop]; omega

/-- A function as a static method: the header made public and static, every line but the last one
tab deeper. -/
def methodText (text : Text) : Text :=
  match text.lines with
  | [] => "public static "
  | header :: rest =>
    let deeper := rest.dropLast.map ('\t' :: ·) ++ rest.getLast?.toList
    Text.unlines (("public static " ++ header.trim) :: deeper)

/-- The assignment that a global with an initializer leaves among the statements. A bare array
initializer is only legal in a declaration, so the assignment names the type. -/
def assignment (g : Global) (value : Text) : Text :=
  if value.startsWith ['{'] then g.name ++ " = new " ++ g.type ++ " " ++ value
  else g.name ++ " = " ++ value

/-- The statement that an item contributes. -/
def Item.statement? : Item → Option Text
  | .importLine _ => none
  | .globalLine line =>
    let g := Global.ofLine line
    g.initializer.map (assignment g)
  | .function _ => none
  | .statement text => some text

/-- The import that an item contributes; lines that the library has are left out. -/
def Item.import? (catalog : Catalog) : Item → Option Declaration
  | .importLine line =>
    if catalog.imports.contains line then none else some ⟨line.classImported?.getD line, line⟩
  | _ => none

/-- Puts the function of an item with those before it. -/
def Item.addFunction (functions : List FunctionText) : Item → List FunctionText
  | .function text =>
    let body := methodText text
    let extend (merged : Text) : Text := if merged = [] then body else merged ++ "\n\n" ++ body
    FunctionText.amend (body.headerName?.getD []) extend functions
  | _ => functions

/-- The functions among items, overloads put together. -/
def functionsOf (items : List Item) : List FunctionText :=
  items.foldl Item.addFunction []

/-- Whether a function or a statement of an item other than the `own`th mentions a name. -/
def isUsed (items : List Item) (own : Nat) (name : Text) : Bool :=
  (items.zipIdx.any fun (item, i) => i != own && item.statement?.any (·.mentions name))
    || (functionsOf items).any (·.body.mentions name)

/-- The field that the item with a given index contributes. -/
def field? (items : List Item) (item : Item) (index : Nat) : Option Declaration :=
  match item with
  | .globalLine line =>
    let g := Global.ofLine line
    if isUsed items index g.name then
      some ⟨g.name, "public static " ++ g.type ++ " " ++ g.name ++ ";"⟩
    else none
  | _ => none

/-- The statement that the item with a given index contributes in the end: the assignment of a
global that nothing else uses becomes a local declaration, if the type is known. -/
def finalStatement? (items : List Item) (item : Item) (index : Nat) : Option Text :=
  match item with
  | .globalLine line =>
    let g := Global.ofLine line
    if g.type = [] || isUsed items index g.name then item.statement?
    else g.initializer.map fun value => g.type ++ " " ++ g.name ++ " = " ++ value
  | _ => item.statement?

/-- The script that consists of given items. -/
def ofItems (catalog : Catalog) (items : List Item) : Script where
  imports := items.filterMap (Item.import? catalog)
  globals := items.zipIdx.filterMap fun (item, i) => field? items item i
  functions := functionsOf items
  entryBody :=
    (Text.unlines (items.zipIdx.filterMap fun (item, i) => finalStatement? items item i)).indent 2

/-- Takes the text of a script apart. -/
def ofText (text : Text) (catalog : Catalog) : Except Diagnostic Script := do
  return ofItems catalog (← itemsOfLines (codeLines text))

end Script

end ScriptLoom
