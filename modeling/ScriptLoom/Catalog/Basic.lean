import ScriptLoom.Signature

/-!
# The library catalog

A catalog lists what a script can use from the library: functions, declarations and import lines,
each as the text to copy into a program. Overloads of a function share one entry.
-/

namespace ScriptLoom

/-- A named function with its text; overloads are texts one after the other. -/
structure FunctionText where
  name : Text
  body : Text
  deriving DecidableEq, Repr

/-- Extends the body kept under a name; a new name comes last, with nothing to extend. -/
def FunctionText.amend (name : Text) (extend : Text → Text) : List FunctionText → List FunctionText
  | [] => [⟨name, extend []⟩]
  | f :: fs => if f.name = name then ⟨name, extend f.body⟩ :: fs else f :: amend name extend fs

/-- A declaration with the name that it declares. -/
structure Declaration where
  name : Text
  text : Text
  deriving DecidableEq, Repr

/-- What the library offers. -/
structure Catalog where
  functions : List FunctionText
  declarations : List Declaration
  imports : List Text
  deriving DecidableEq, Repr

namespace Catalog

/-- The catalog that offers nothing. -/
def empty : Catalog := ⟨[], [], []⟩

/-- Functions of one name put together, in the order in which the names first come. -/
def mergeOverloads (functions : List FunctionText) : List FunctionText :=
  let merged := functions.foldl
    (fun entries f => FunctionText.amend f.name (· ++ f.body ++ ['\n', '\n']) entries) []
  merged.map fun f => { f with body := f.body.trimEnd }

/-- The catalog of given parts, overloads merged. -/
def ofParts (functions : List FunctionText) (declarations : List Declaration)
    (imports : List Text) : Catalog :=
  ⟨mergeOverloads functions, declarations, imports⟩

/-- The names of the functions, then those of the declarations. -/
def names (catalog : Catalog) : List Text :=
  catalog.functions.map (·.name) ++ catalog.declarations.map (·.name)

/-- The classes that the import lines bring in. -/
def importedClasses (catalog : Catalog) : List Text :=
  catalog.imports.filterMap Text.classImported?

end Catalog

end ScriptLoom
