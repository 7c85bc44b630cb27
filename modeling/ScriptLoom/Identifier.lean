import ScriptLoom.Scan

/-!
# Identifiers

An identifier is a maximal run of letters, digits, underscores and dollar signs in the code of a
text that does not start with a digit. It comes with the text that stands before it, nearest
character first: that text gives its offset, its line and what precedes it.
-/

namespace ScriptLoom

/-- Whether a character can stand in an identifier. -/
def isIdentChar (c : Char) : Bool :=
  c.isAlphanum || c == '_' || c == '$'

/-- An identifier where it stands. -/
structure Identifier where
  /-- The text before it, nearest character first. -/
  before : Text
  name : Text
  deriving DecidableEq, Repr

namespace Identifier

/-- The byte offset of an identifier. -/
def offset (ident : Identifier) : Nat :=
  Text.size ident.before

/-- The line of an identifier. -/
def line (ident : Identifier) : Nat :=
  Text.lineAfter ident.before

/-- The identifier that a finished run makes; a run that starts with a digit is a number. The run
and the text before it are given nearest character first. -/
def ofRun (before run : Text) : List Identifier :=
  match run.reverse with
  | [] => []
  | c :: rest => if c.isDigit then [] else [⟨before, c :: rest⟩]

/-- The identifiers among pieces, given the text before them and the run they may continue, both
nearest character first. -/
def ofPieces (before run : Text) : List Piece → List Identifier
  | [] => ofRun before run
  | .code c :: ps =>
    if isIdentChar c then ofPieces before (c :: run) ps
    else ofRun before run ++ ofPieces (c :: (run ++ before)) [] ps
  | .region _ body _ :: ps =>
    ofRun before run ++ ofPieces (body.reverse ++ (run ++ before)) [] ps

end Identifier

/-- The identifiers of a text, in order. -/
def Text.identifiers (t : Text) : List Identifier :=
  Identifier.ofPieces [] [] t.pieces

/-- The names of the identifiers of a text, in order. -/
def Text.names (t : Text) : List Text :=
  t.identifiers.map (·.name)

/-- Whether a text has an identifier of a given name. -/
def Text.mentions (t name : Text) : Bool :=
  t.names.contains name

/-- The run of identifier characters that ends a text, blanks after it passed over. -/
def Text.lastRun (t : Text) : Text :=
  ((t.reverse.dropWhile Text.isBlank).takeWhile isIdentChar).reverse

end ScriptLoom
