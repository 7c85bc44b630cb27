import ScriptLoom.Catalog.Basic
import ScriptLoom.Failure
import ScriptLoom.Json.Reader

/-!
# Catalogs written in JSON

A JSON catalog lists functions, declarations and import lines. A declaration may leave out its
name, which is then read from its text.
-/

namespace ScriptLoom

namespace Catalog

/-- A declaration as a JSON catalog gives it. -/
structure Listed where
  name : Option Text
  text : Text
  deriving DecidableEq, Repr

/-- Reads a function. -/
def functionOfJson? (json : Json) : Option FunctionText := do
  let field ← json.record? ["name", "body"] false
  return ⟨← Json.required? Json.text? (field "name"), ← Json.required? Json.text? (field "body")⟩

/-- Reads a declaration. -/
def listedOfJson? (json : Json) : Option Listed := do
  let field ← json.record? ["name", "text"] false
  return ⟨← Json.optional? (Json.nullable? Json.text?) none (field "name"),
    ← Json.required? Json.text? (field "text")⟩

/-- Reads the lists of a catalog. -/
def listsOfJson? (json : Json) : Option (List FunctionText × List Listed × List Text) := do
  let field ← json.record? ["functions", "declarations", "imports"] false
  return (← Json.optional? (Json.items? functionOfJson?) [] (field "functions"),
    ← Json.optional? (Json.items? listedOfJson?) [] (field "declarations"),
    ← Json.optional? (Json.items? Json.text?) [] (field "imports"))

/-- Checks that the function with a given index has a name. -/
def checkFunction (f : FunctionText) (index : Nat) : Except Failure Unit :=
  if f.name.trim = [] then .error (.of (.emptyFunctionName index)) else .ok ()

/-- The declaration with a given index, with the name that is written or declared. -/
def nameListed (listed : Listed) (index : Nat) : Except Failure Declaration :=
  match listed.name.orElse fun _ => listed.text.fieldName? with
  | some name => .ok ⟨name, listed.text.trim⟩
  | none => .error (.of (.unnamedDeclaration index listed.text))

/-- An import line without the blanks around it. -/
def checkImport (line : Text) : Except Failure Text :=
  if line.trimStart.startsWith Keyword.imports && line.trimEnd.endsWith [';'] then .ok line.trim
  else .error (.of (.notAnImport line))

/-- The catalog that a JSON text describes. -/
def ofJson (text : Text) : Except Failure Catalog := do
  match (Json.ofText? text).bind listsOfJson? with
  | none => .error (.of .malformedJson)
  | some (functions, declarations, imports) =>
    let _ ← functions.zipIdx.mapM fun (f, i) => checkFunction f i
    let declarations ← declarations.zipIdx.mapM fun (d, i) => nameListed d i
    let imports ← imports.mapM checkImport
    return .ofParts functions declarations imports

end Catalog

end ScriptLoom
