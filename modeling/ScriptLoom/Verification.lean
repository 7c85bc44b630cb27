import ScriptLoom.Catalog.Basic
import ScriptLoom.FormatCall
import ScriptLoom.Text.Lowercase

/-!
# Verification of a script

The checks that a script passes before anything is made of it. A check looks at the text, or at
the text without comments, and reports every problem it finds; all reports go into one set.
-/

namespace ScriptLoom

namespace Verification

/-- Comments and literals that nothing closes. -/
def regionProblems (text : Text) : List Diagnostic :=
  text.unclosed.map fun span => (Problem.unclosed span.kind).onLine (text.lineNumberAt span.start)

/-- The closing braces without an opening one, then the opening braces left open, each with its
place; `opened` are the places of the braces open so far, innermost first. -/
def unmatchedBraces (opened : List Nat) : List (Nat × Char) → List (Nat × Problem)
  | [] => opened.reverse.map fun i => (i, .openBrace)
  | (i, c) :: rest =>
    if c = '{' then unmatchedBraces (i :: opened) rest
    else if c = '}' then
      match opened with
      | [] => (i, .strayClosing '}') :: unmatchedBraces [] rest
      | _ :: outer => unmatchedBraces outer rest
    else unmatchedBraces opened rest

/-- Every brace needs a partner. -/
def braceProblems (code : Text) : List Diagnostic :=
  (unmatchedBraces [] code.code).map fun (i, problem) => problem.onLine (code.lineNumberAt i)

/-- The number of parentheses left open, and whether one closes nothing. -/
def parenthesisBalance : Nat → List (Nat × Char) → Nat × Bool
  | opened, [] => (opened, false)
  | opened, (_, c) :: rest =>
    if c = '(' then parenthesisBalance (opened + 1) rest
    else if c = ')' then
      match opened with
      | 0 => ((parenthesisBalance 0 rest).1, true)
      | opened + 1 => parenthesisBalance opened rest
    else parenthesisBalance opened rest

/-- Parentheses never span lines, so each line is balanced on its own. -/
def parenthesisProblems (code : Text) : List Diagnostic :=
  code.numberedLines.flatMap fun (n, line) =>
    let balance := parenthesisBalance 0 line.code
    (if balance.1 = 0 then [] else [Problem.openParenthesis.onLine n])
      ++ (if balance.2 then [(Problem.strayClosing ')').onLine n] else [])

/-- The literals followed by a percent sign but by no arguments, the first piece being on a given
line. -/
def bareFormats (line : Nat) : List Piece → List Diagnostic
  | [] => []
  | .region .string body true :: ps =>
    let after := line + body.count '\n'
    let found := match FormatCall.percentAfter? ps with
      | some (percent, _) =>
        if (FormatCall.argumentsAfter? ps).isSome then []
        else [Problem.bareFormat.onLine (after + percent.count '\n')]
      | none => []
    found ++ bareFormats after ps
  | p :: ps => bareFormats (line + p.text.count '\n') ps

/-- A percent sign behind a literal needs parenthesised arguments. -/
def formatProblems (code : Text) : List Diagnostic :=
  bareFormats 1 code.pieces

/-- Whether a dot stands right before an identifier. -/
def followsDot (ident : Identifier) : Bool :=
  (ident.before.dropWhile Text.isBlank).head? == some '.'

/-- Library names in the wrong letter case. Names spelled exactly, classes that the library
imports, members of something and what follows `new` are left alone. -/
def letterCaseProblems (code : Text) (catalog : Catalog) : List Diagnostic :=
  let exact := catalog.names ++ catalog.importedClasses
  let folded := catalog.names.map fun name => (name.lower, name)
  let idents := code.identifiers
  (([] :: idents.map (·.name)).zip idents).filterMap fun (previous, ident) =>
    if exact.contains ident.name || previous == ("new" : Text) || followsDot ident then none
    else (folded.lookup ident.name.lower).map fun expected =>
      (Problem.wrongCase ident.name expected).onLine ident.line

/-- The name that starts at the front of a text and reaches to its end, blanks apart, given the
character before it. It starts at a word boundary. -/
def nameToEnd? (previous : Char) (t : Text) : Option Text :=
  let inName (c : Char) : Bool := Text.isWordChar c || c == '$'
  match t with
  | [] => none
  | c :: _ =>
    if (c.isAlpha || c == '_' || c == '$') && Text.isWordChar previous != Text.isWordChar c
        && (t.dropWhile inName).all Text.isBlank then
      some (t.takeWhile inName)
    else none

/-- The first name that reaches to the end of a text, given the character before the text. -/
def firstNameToEnd? (previous : Char) : Text → Option Text
  | [] => none
  | c :: t =>
    match nameToEnd? previous (c :: t) with
    | some name => some name
    | none => firstNameToEnd? c t

/-- The name of the function that a line declares with `func`. -/
def declaredFunction? (line : Text) : Option Text := do
  match ← Text.dropPrefix? "func" line.trimStart with
  | [] => none
  | c :: rest =>
    let (header, _) ← Text.cutAt? '(' rest
    if Text.isBlank c then firstNameToEnd? c header else none

/-- A script may not declare a function that the library has, in any letter case. -/
def functionProblems (code : Text) (catalog : Catalog) : List Diagnostic :=
  let builtins := catalog.functions.map (·.name.lower)
  code.numberedLines.filterMap fun (n, line) => do
    let name ← declaredFunction? line
    if builtins.contains name.lower then some ((Problem.reserved name).onLine n) else none

/-- The parameter of the entry point, which scripts cannot assign. -/
def reservedParameter : Text := "args"

/-- A global may not take a name of the library, in any letter case, nor that of the entry
parameter. -/
def globalProblems (code : Text) (catalog : Catalog) : List Diagnostic :=
  let names := catalog.names.map Text.lower
  code.numberedLines.filterMap fun (n, line) =>
    if line.trimStart.startsWith Keyword.global then
      let name := (Global.ofLine line).name
      if names.contains name.lower || name == reservedParameter then
        some ((Problem.reserved name).onLine n)
      else none
    else none

/-- The text before the operator that ends in an equals sign, given the text before that sign,
nearest character first; `none` when the sign belongs to a comparison. -/
def beforeOperator? : Text → Option Text
  | [] => some []
  | c :: before =>
    if ['!', '<', '>', '='].contains c then none
    else if ['+', '-', '*', '/', '%', '&', '|', '^'].contains c then some before
    else some (c :: before)

/-- The texts before the assignment operators among pieces, given the text before the pieces, all
nearest character first. -/
def assignments (before : Text) : List Piece → List Text
  | [] => []
  | .code '=' :: .code '=' :: ps => assignments ('=' :: '=' :: before) ps
  | .code '=' :: ps => (beforeOperator? before).toList ++ assignments ('=' :: before) ps
  | p :: ps => assignments (p.text.reverse ++ before) ps

/-- The identifier right before an assignment operator, given the text before the operator,
nearest character first. -/
def targetName? (before : Text) : Option Text :=
  match ((before.dropWhile Text.isBlank).takeWhile isIdentChar).reverse with
  | [] => none
  | c :: name => if c.isDigit then none else some (c :: name)

/-- A script may not assign a declaration of the library, in any letter case, nor the entry
parameter. -/
def assignmentProblems (code : Text) (catalog : Catalog) : List Diagnostic :=
  let reserved := reservedParameter :: catalog.declarations.map (·.name.lower)
  (assignments [] code.pieces).filterMap fun before => do
    let name ← targetName? before
    if reserved.contains name.lower then some ((Problem.reserved name).onLine before.lineAfter)
    else none

end Verification

open Verification in
/-- All problems of a script. -/
def problemsIn (text : Text) (catalog : Catalog) : Diagnostics :=
  let code := text.withoutComments
  .ofList (regionProblems text ++ braceProblems code ++ parenthesisProblems code
    ++ formatProblems code ++ letterCaseProblems code catalog ++ functionProblems code catalog
    ++ globalProblems code catalog ++ assignmentProblems code catalog)

end ScriptLoom
