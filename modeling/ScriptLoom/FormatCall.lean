import ScriptLoom.Bracket
import ScriptLoom.Problem

/-!
# Format calls

A closed string literal followed by `%` and parenthesised arguments, with gaps allowed around the
percent sign, is a format call. It stands for the literal with its arguments substituted one after
the other, so each argument becomes one substitution call behind the literal. One call is
expanded at a time, the first one of the text, until none is left.
-/

namespace ScriptLoom

/-- A format call and what surrounds it. -/
structure FormatCall where
  /-- The text up to and including the literal. -/
  literal : Text
  /-- The percent sign with the gaps around it. -/
  percent : Text
  /-- The pieces after the opening parenthesis. -/
  rest : List Piece
  deriving DecidableEq, Repr

namespace FormatCall

/-- A percent sign behind a literal: the text through the sign, and the pieces after it. -/
def percentAfter? (ps : List Piece) : Option (Text × List Piece) :=
  match takeCode Text.isGap ps with
  | (gap, .code '%' :: rest) => some (gap ++ ['%'], rest)
  | _ => none

/-- The opening of the arguments behind a literal: the text up to the parenthesis, and the pieces
after it. -/
def argumentsAfter? (ps : List Piece) : Option (Text × List Piece) := do
  let (percent, rest) ← percentAfter? ps
  match takeCode Text.isGap rest with
  | (gap, .code '(' :: inside) => some (percent ++ gap, inside)
  | _ => none

/-- The first format call among pieces. -/
def find? : List Piece → Option FormatCall
  | [] => none
  | .region .string body true :: ps =>
    match argumentsAfter? ps with
    | some (percent, rest) => some ⟨body, percent, rest⟩
    | none => (find? ps).map fun call => { call with literal := body ++ call.literal }
  | p :: ps => (find? ps).map fun call => { call with literal := p.text ++ call.literal }

/-- The pieces between the commas that stand inside no bracket, `depth` brackets being open. -/
def argumentPieces : Nat → List Piece → List (List Piece)
  | _, [] => [[]]
  | depth, .code c :: ps =>
    if c = '(' ∨ c = '[' ∨ c = '{' then
      (argumentPieces (depth + 1) ps).modifyHead (.code c :: ·)
    else if c = ')' ∨ c = ']' ∨ c = '}' then
      (argumentPieces (depth - 1) ps).modifyHead (.code c :: ·)
    else if c = ',' ∧ depth = 0 then [] :: argumentPieces depth ps
    else (argumentPieces depth ps).modifyHead (.code c :: ·)
  | depth, p :: ps => (argumentPieces depth ps).modifyHead (p :: ·)

/-- The arguments between the parentheses of a format call; blanks alone are no argument. -/
def arguments (inside : List Piece) : List Text :=
  let parts := (argumentPieces 0 inside).map fun part => (spell part).trim
  if parts = [[]] then [] else parts

/-- The call that substitutes one argument. -/
def substitution (argument : Text) : Text :=
  ".replaceFirst(\"%s\", java.util.regex.Matcher.quoteReplacement(String.valueOf("
    ++ argument ++ ")))"

end FormatCall

namespace Text

/-- The text with its first format call expanded; `none` when there is no format call. -/
def expandFirst (t : Text) : Except Diagnostic (Option Text) :=
  match FormatCall.find? t.pieces with
  | none => .ok none
  | some call =>
    match splitAtClose? '(' ')' 0 call.rest with
    | none => .error (Problem.openArguments.onLine (lineAfter (call.literal ++ call.percent)))
    | some (inside, after) =>
      .ok (some (call.literal
        ++ (FormatCall.arguments inside).flatMap FormatCall.substitution ++ spell after))

/-- The number of percent signs that a parenthesis follows, gaps between them allowed. No text
has more format calls than that, and an expansion removes one. -/
def percentMarks : Text → Nat
  | [] => 0
  | c :: t =>
    (if c = '%' ∧ (t.dropWhile isGap).head? = some '(' then 1 else 0) + percentMarks t

/-- The texts after each of at most `limit` expansions, and the problem that stopped them. -/
def expansionsWithin : Nat → Text → List Text × Option Diagnostic
  | 0, _ => ([], none)
  | limit + 1, t =>
    match t.expandFirst with
    | .error problem => ([], some problem)
    | .ok none => ([], none)
    | .ok (some next) =>
      let further := expansionsWithin limit next
      (next :: further.1, further.2)

/-- The texts after each expansion, and the problem that stopped them. -/
def expansions (t : Text) : List Text × Option Diagnostic :=
  expansionsWithin t.percentMarks t

/-- The text with all its format calls expanded. -/
def expandAll (t : Text) : Except Diagnostic Text :=
  match t.expansions with
  | (_, some problem) => .error problem
  | (steps, none) => .ok (steps.getLast?.getD t)

end Text

end ScriptLoom
