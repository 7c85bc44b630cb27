import ScriptLoom.CompilerMessage
import ScriptLoom.Record

/-!
# Messages moved to the script

A generated program consists of the lines of the script, trimmed and indented anew, and of
library code. A message of the compiler is moved to the script when the generated line that it is
about comes from exactly one line there; otherwise it stays with the generated file.
-/

namespace ScriptLoom

/-- A message of the compiler with the place where the user finds it. -/
structure Located where
  /-- The script, or the file of a generated unit. -/
  file : Text
  /-- The line in question. -/
  codeLine : Text
  diagnostic : Diagnostic
  /-- The class of the program. -/
  className : Text
  deriving DecidableEq, Repr

namespace Located

/-- Whether a message stays with a generated file. -/
def isGenerated (r : Located) : Bool :=
  r.diagnostic.kind == .relocation

/-- A message with its place; for generated code, also how to keep the file. -/
def display (r : Located) : Text :=
  let place := (if r.isGenerated then ("Generated file: " : Text) else [])
    ++ r.file ++ " line " ++ Text.ofNat r.diagnostic.line
  let hint : Text := if r.isGenerated then
      "\nThis was an error in generated code. To see what caused it, build again with "
        ++ "--generate: a directory called \"" ++ r.className
        ++ "/gen/\" will be kept, holding the generated " ++ r.file ++ "."
    else []
  place ++ "\n" ++ r.codeLine ++ "\n" ++ r.diagnostic.severity.label ++ ": "
    ++ r.diagnostic.message ++ hint

end Located

/-- The script that messages are moved to. -/
structure Locator where
  userFile : Text
  userSource : Text
  className : Text
  deriving DecidableEq, Repr

namespace Locator

/-- The lines of the script that a generated line can come from: trimmed they are equal, with or
without the comments of the script's line. A blank line comes from nowhere. -/
def sourceLines (r : Locator) (line : Text) : List Nat :=
  let wanted := line.trim
  if wanted = [] then []
  else r.userSource.numberedLines.filterMap fun (n, user) =>
    if user.trim = wanted || user.withoutComments.trim = wanted then some n else none

/-- A message that stays with the file of a generated unit. -/
def inUnit (r : Locator) (unitName : Text) (line : Nat) (codeLine : Text)
    (m : CompilerMessage) : Located :=
  ⟨unitName ++ ".java", codeLine,
    ⟨line, .relocation, m.severity, Text.erase "java.lang." m.message⟩, r.className⟩

/-- A message that belongs to a line of the script. -/
def inScript (r : Locator) (line : Nat) (m : CompilerMessage) : Located :=
  ⟨r.userFile, r.userSource.lineAt line,
    ⟨line, .compile, m.severity, Text.erase "java.lang." m.message⟩, r.className⟩

/-- Moves a message about a generated unit to the script if its line is known there. A message
about a struct belongs to the line that declares the struct. -/
def locate (r : Locator) (unitName generated : Text) (m : CompilerMessage) : Located :=
  match m.position with
  | none => r.inUnit unitName 0 [] m
  | some position =>
    let bounds := generated.lineRange position
    let line := generated.slice bounds.1 bounds.2
    let candidates :=
      if unitName = r.className then r.sourceLines line
      else Record.linesDeclaring r.userSource unitName
    match candidates with
    | [only] => r.inScript only m
    | _ => r.inUnit unitName (generated.lineNumberAt position) line m

end Locator

end ScriptLoom
