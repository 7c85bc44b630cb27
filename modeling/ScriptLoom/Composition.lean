import ScriptLoom.Closure
import ScriptLoom.Script
import ScriptLoom.SourceUnit

/-!
# Composing a program

A script taken apart is laid out in a unit; the library entries that the unit needs are copied in,
and last the import lines whose classes the finished text mentions.
-/

namespace ScriptLoom

/-- The import lines whose class a text mentions outside its own import lines; imports of a whole
package always pass. -/
def usedImports (text : Text) (candidates : List Text) : List Text :=
  let isCode (line : Text) : Bool := !line.trimStart.startsWith Keyword.imports
  let body := Text.unlines (text.lines.filter isCode)
  let names := body.names
  candidates.filter fun line =>
    match line.classImported? with
    | some name => name == ['*'] || names.contains name
    | none => false

/-- A unit with what the library contributed to it, in the order of inclusion. -/
structure Composition where
  unit : SourceUnit
  builtins : List Text
  declarations : List Text
  imports : List Text

namespace Composition

/-- The entry point with the statements of a script. -/
def entryPoint (body : Text) : Text :=
  let statements := if body = [] then [] else body ++ ['\n']
  "\tpublic static void main(String[] args) \x7b\n" ++ statements ++ "\t\x7d"

/-- The unit with the contents of a script only. -/
def scriptPart (script : Script) (className : Text) : SourceUnit :=
  ((((((SourceUnit.empty.fill .userImports (Text.unlines (script.imports.map (·.text)))).fill
    .classHeader ("public class " ++ className ++ " \x7b")).fill
    .userGlobals ((Text.unlines (script.globals.map (·.text))).indent 1)).fill
    .entryPoint (entryPoint script.entryBody)).fill
    .userFunctions ((Text.join "\n\n" (script.functions.map (·.body))).indent 1)).fill
    .classFooter "\x7d")

/-- A unit with library entries copied in. -/
def withEntries (unit : SourceUnit) (entries : List Entry) : SourceUnit :=
  let withFunctions :=
    (Closure.functionBodies entries).foldl
      (fun unit body => unit.append .builtinFunctions body) unit
  (Closure.declarationTexts entries).foldl
    (fun unit text => unit.append .catalogDeclarations text) withFunctions

end Composition

/-- Lays out a script and copies in what it needs from the library. -/
def Script.compose (script : Script) (className : Text) (catalog : Catalog) : Composition :=
  let seeded := Composition.scriptPart script className
  let entries := Closure.needed catalog seeded.render
  let unit := Composition.withEntries seeded entries
  let imports := usedImports unit.render catalog.imports
  { unit := unit.fill .catalogImports (Text.unlines imports)
    builtins := Closure.functionNames entries
    declarations := Closure.declarationNames entries
    imports := imports }

end ScriptLoom
