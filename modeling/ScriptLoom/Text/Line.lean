import ScriptLoom.Text.Blank

/-!
# Lines

Line feeds divide a text into lines, numbered from one. The offsets of the line feeds decide
everything: the line of an offset is one more than the number of line feeds before it, and its
bounds are the nearest line feeds around it.
-/

namespace ScriptLoom

namespace Text

/-- The byte offsets of the line feeds of a text. -/
def lineFeeds (t : Text) : List Nat :=
  t.indexed.filterMap fun (i, c) => if c = '\n' then some i else none

/-- The line number of a byte offset; past the end it is that of the last line. -/
def lineNumberAt (t : Text) (offset : Nat) : Nat :=
  1 + (t.lineFeeds.filter (· < offset)).length

/-- The byte offset at which each line starts. -/
def lineOffsets (t : Text) : List Nat :=
  0 :: t.lineFeeds.map (· + 1)

/-- The bounds of the line that holds a byte offset, its line feed left out. -/
def lineRange (t : Text) (offset : Nat) : Nat × Nat :=
  (((t.lineFeeds.filter (· < offset)).getLast?.map (· + 1)).getD 0,
    (t.lineFeeds.find? (offset ≤ ·)).getD t.size)

/-- The number of the line that follows a text. -/
def lineAfter (before : Text) : Nat :=
  1 + before.count '\n'

/-- A line without the carriage return at its end. -/
def dropReturn (line : Text) : Text :=
  match line.reverse with
  | '\r' :: before => before.reverse
  | _ => line

/-- The lines among the parts between line feeds: an empty last part is no line, and a part that
a line feed ended loses the carriage return before it. -/
def linesOfParts : List Text → List Text
  | [] => []
  | [last] => if last = [] then [] else [last]
  | line :: rest => dropReturn line :: linesOfParts rest

/-- The lines of a text. -/
def lines (t : Text) : List Text :=
  linesOfParts (t.splitOn '\n')

/-- The lines of a text with their numbers. -/
def numberedLines (t : Text) : List (Nat × Text) :=
  t.lines.zipIdx.map fun (line, i) => (i + 1, line)

/-- The line with a given number, empty when there is none; number zero stands for the first. -/
def lineAt (t : Text) (number : Nat) : Text :=
  (t.lines[number - 1]?).getD []

/-- What is left of a text after each of its line feeds. -/
def afterLineFeeds : Text → List Text
  | [] => []
  | c :: t => if c = '\n' then t :: afterLineFeeds t else afterLineFeeds t

/-- What is left of a text at the start of each line. -/
def lineTails (t : Text) : List Text :=
  t :: afterLineFeeds t

/-- Lines joined by line feeds. -/
def unlines (ls : List Text) : Text :=
  join ['\n'] ls

/-- A text with every line put `depth` tabs deeper. -/
def indent (t : Text) (depth : Nat) : Text :=
  unlines (t.lines.map (List.replicate depth '\t' ++ ·))

/-- A text without its blank lines. -/
def withoutBlankLines (t : Text) : Text :=
  unlines (t.lines.filter fun line => trim line ≠ [])

end Text

end ScriptLoom
