import ScriptLoom.Path
import ScriptLoom.Record
import ScriptLoom.Verification

/-!
# From a script to a program

The whole way: a script is searched for problems, its format calls are expanded, it is taken
apart, laid out together with what it needs from the library, and its structs become units of
their own. A step that fails ends the way with its diagnostics.
-/

namespace ScriptLoom

/-- A program: its main unit and one unit for each struct. -/
structure Program where
  className : Text
  source : Text
  auxiliary : List NamedSource
  deriving DecidableEq, Repr

namespace Program

/-- The main unit of a program. -/
def mainUnit (program : Program) : NamedSource :=
  ⟨program.className, program.source⟩

/-- The units of a program in the order in which they are compiled, the main unit last. -/
def units (program : Program) : List NamedSource :=
  program.auxiliary ++ [program.mainUnit]

/-- The program of a script that was found free of problems. -/
def ofSound (text className : Text) (catalog : Catalog) : Except Diagnostic Program := do
  let script ← Script.ofText (← text.expandAll) catalog
  let (records, unit) := takeRecords (script.compose className catalog).unit className text
  let records ← records
  let imports := catalog.imports ++ script.imports.map (·.text)
  return ⟨className, unit.compact, records.map (·.render imports)⟩

/-- The program of a script, or the diagnostics that it is refused with. -/
def ofScript (text : Text) (fileName : Path) (catalog : Catalog) : Except Diagnostics Program :=
  let problems := problemsIn text catalog
  if problems.isEmpty then
    (ofSound text fileName.className catalog).mapError fun d => .ofList [d]
  else .error problems

end Program

end ScriptLoom
