import ScriptLoom.Diagnostic
import ScriptLoom.Text.Letter

/-!
# Messages of the compiler

The compiler writes a message as a header line with file, line number and severity, the source
line it is about, a line with a caret under the column, and indented lines that belong to the
message. Messages about no file consist of one line. The output is read line by line; a header
always starts a new message.
-/

namespace ScriptLoom

/-- A message of the compiler about the unit that it compiled. -/
structure CompilerMessage where
  /-- The byte offset in the source of the unit. -/
  position : Option Nat
  severity : Severity
  message : Text
  deriving DecidableEq, Repr

namespace CompilerMessage

/-- Whether a message is an error. -/
def isError (m : CompilerMessage) : Bool :=
  m.severity == .error

/-- A message whose lines are still being read. -/
structure Header where
  line : Nat
  severity : Severity
  message : Text
  column : Nat
  deriving DecidableEq, Repr

/-- The number that digits spell; digits of other scripts than the Latin one, and numbers that
need more than 64 bits, count as zero. -/
def digitsValue (digits : Text) : Nat :=
  let n := digits.foldl (fun n c => 10 * n + (c.toNat - '0'.toNat)) 0
  if digits.all Char.isDigit && n < UInt64.size then n else 0

/-- The severity and the rest of a text that starts with one of some words and a colon. -/
def splitSeverity? (words : List (String × Severity)) (t : Text) : Option (Severity × Text) :=
  words.findSome? fun (word, severity) =>
    (Text.dropPrefix? (word.toList ++ [':', ' ']) t).map fun rest => (severity, rest)

/-- The words for the severity in a header. -/
def headerWords : List (String × Severity) :=
  [("error", .error), ("warning", .warning), ("note", .note)]

/-- The words for the severity in a message about no file. -/
def bareWords : List (String × Severity) :=
  [("error", .error), ("warning", .warning), ("Note", .note), ("note", .note)]

/-- Reads a header from the extension of its file name on. -/
def headerAtExtension? (t : Text) : Option Header := do
  let rest ← Text.dropPrefix? ".java:" t
  let digits := rest.takeWhile Text.isDecimal
  if digits = [] then none
  else
    let rest ← Text.dropPrefix? ": " (rest.dropWhile Text.isDecimal)
    let (severity, message) ← splitSeverity? headerWords rest
    return ⟨digitsValue digits, severity, message, 0⟩

/-- Reads a header from the last extension in a text after which one can be read. -/
def lastHeader? : Text → Option Header
  | [] => none
  | c :: t =>
    match lastHeader? t with
    | some header => some header
    | none => headerAtExtension? (c :: t)

/-- Reads a header line. -/
def header? (line : Text) : Option Header :=
  match line with
  | [] => none
  | _ :: rest => lastHeader? rest

/-- Reads a message about no file. -/
def bare? (line : Text) : Option CompilerMessage :=
  (splitSeverity? bareWords line).map fun (severity, message) => ⟨none, severity, message⟩

/-- Whether a line counts the errors or warnings. -/
def isCount (line : Text) : Bool :=
  line.takeWhile Text.isDecimal != []
    && [" error", " errors", " warning", " warnings"].any
      fun ending => line.dropWhile Text.isDecimal == ending.toList

/-- The column of the caret in a line that holds nothing else. -/
def columnOfCaret? (line : Text) : Option Nat :=
  if line.trim = ['^'] then line.findIdx? (· = '^') else none

/-- The byte offset of a column on a line of a source; a column past the end of the line stands
for its end. -/
def positionOf? (source : Text) (line column : Nat) : Option Nat :=
  match line with
  | 0 => none
  | line + 1 => do
    let start ← source.lineOffsets[line]?
    return start + Text.size ((source.slice start (source.lineRange start).2).take column)

/-- What is being read: nothing, or a message of which the source line, the caret or further lines
may follow. -/
inductive Stage where
  | idle
  | echo (header : Header)
  | caret (header : Header)
  | further (header : Header)
  deriving DecidableEq, Repr

namespace Stage

/-- The message that is complete when reading ends. -/
def finish (source : Text) : Stage → List CompilerMessage
  | .idle => []
  | .echo h | .caret h | .further h => [⟨positionOf? source h.line h.column, h.severity, h.message⟩]

/-- Reads a line that belongs to no message before it. -/
def start (line : Text) : List CompilerMessage × Stage :=
  match header? line with
  | some header => ([], .echo header)
  | none => ((bare? line).toList, .idle)

/-- Reads a line after the caret of a message. -/
def extend (source : Text) (h : Header) (line : Text) : List CompilerMessage × Stage :=
  if (header? line).isSome || isCount line.trim || !(line.head?.any Text.isBlank) then
    let next := start line
    ((Stage.further h).finish source ++ next.1, next.2)
  else ([], .further { h with message := h.message ++ '\n' :: line.trim })

/-- Reads one line: the messages it completes and what is being read after it. -/
def step (source : Text) (stage : Stage) (line : Text) : List CompilerMessage × Stage :=
  match stage with
  | .idle => start line
  | .echo h =>
    if (header? line).isSome then extend source h line else ([], .caret h)
  | .caret h =>
    match columnOfCaret? line with
    | some column => ([], .further { h with column := column })
    | none => extend source h line
  | .further h => extend source h line

/-- Reads lines to the end. -/
def run (source : Text) (stage : Stage) : List Text → List CompilerMessage
  | [] => stage.finish source
  | line :: lines =>
    let next := stage.step source line
    next.1 ++ run source next.2 lines

end Stage

/-- The messages in the output of the compiler for a source. -/
def read (output source : Text) : List CompilerMessage :=
  Stage.idle.run source output.lines

end CompilerMessage

end ScriptLoom
