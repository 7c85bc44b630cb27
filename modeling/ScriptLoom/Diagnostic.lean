import ScriptLoom.Text.Line

/-!
# Diagnostics

A diagnostic is one message about one line of a script. Diagnostics are collected in a set that
is ordered by line and holds a message at most once per line: the first one pushed is kept, and
the messages of a line stay in the order in which they came.
-/

namespace ScriptLoom

/-- What kind of problem a diagnostic reports. -/
inductive Kind where
  | unterminated
  | imbalance
  | format
  | letterCase
  | collision
  | relocation
  | compile
  | packaging
  deriving DecidableEq, Repr

/-- The word for a kind. -/
def Kind.label : Kind → Text
  | .unterminated => "unterminated"
  | .imbalance => "imbalance"
  | .format => "format"
  | .letterCase => "case"
  | .collision => "collision"
  | .relocation => "relocation"
  | .compile => "compile"
  | .packaging => "packaging"

/-- How serious a diagnostic is. -/
inductive Severity where
  | error
  | warning
  | note
  deriving DecidableEq, Repr

/-- The word for a severity. -/
def Severity.label : Severity → Text
  | .error => "error"
  | .warning => "warning"
  | .note => "note"

/-- The word for a severity at the start of a sentence. -/
def Severity.title : Severity → Text
  | .error => "Error"
  | .warning => "Warning"
  | .note => "Note"

/-- A message about one line, counted from one; line zero stands for no line. -/
structure Diagnostic where
  line : Nat
  kind : Kind
  severity : Severity
  message : Text
  deriving DecidableEq, Repr

namespace Diagnostic

/-- An error of a given kind. -/
def error (kind : Kind) (line : Nat) (message : Text) : Diagnostic :=
  ⟨line, kind, .error, message⟩

/-- A diagnostic on one line of output. -/
def display (d : Diagnostic) : Text :=
  "[" ++ d.kind.label ++ "] line " ++ Text.ofNat d.line ++ ": " ++ d.message

/-- A diagnostic with its place in a file and the line of the source that it is about. -/
def inSource (d : Diagnostic) (fileName source : Text) : Text :=
  d.severity.title ++ " in " ++ fileName ++ " line " ++ Text.ofNat d.line ++ "\n\t"
    ++ source.lineAt d.line ++ "\n" ++ d.message

end Diagnostic

/-- A set of diagnostics in line order. -/
structure Diagnostics where
  toList : List Diagnostic
  deriving DecidableEq, Repr

namespace Diagnostics

/-- The empty set. -/
def empty : Diagnostics := ⟨[]⟩

/-- Whether a set holds a message on a line. -/
def holds (ds : Diagnostics) (line : Nat) (message : Text) : Bool :=
  ds.toList.any fun d => d.line == line && d.message == message

/-- Adds a diagnostic after those of its line, unless its line has the message already. -/
def push (ds : Diagnostics) (d : Diagnostic) : Diagnostics :=
  if ds.holds d.line d.message then ds
  else ⟨ds.toList.takeWhile (·.line ≤ d.line) ++ d :: ds.toList.dropWhile (·.line ≤ d.line)⟩

/-- Adds diagnostics one after the other. -/
def pushAll (ds : Diagnostics) (items : List Diagnostic) : Diagnostics :=
  items.foldl push ds

/-- Adds the diagnostics of another set. -/
def extend (ds other : Diagnostics) : Diagnostics :=
  ds.pushAll other.toList

/-- The set of the given diagnostics. -/
def ofList (items : List Diagnostic) : Diagnostics :=
  empty.pushAll items

/-- The number of diagnostics. -/
def size (ds : Diagnostics) : Nat :=
  ds.toList.length

/-- Whether there are no diagnostics. -/
def isEmpty (ds : Diagnostics) : Bool :=
  ds.toList.isEmpty

/-- The members of an ascending list, each once. -/
def distinct : List Nat → List Nat
  | [] => []
  | [n] => [n]
  | m :: n :: rest => if m = n then distinct (n :: rest) else m :: distinct (n :: rest)

/-- The lines that carry diagnostics, ascending. -/
def lines (ds : Diagnostics) : List Nat :=
  distinct (ds.toList.map (·.line))

/-- The number of diagnostics of a kind. -/
def countKind (ds : Diagnostics) (kind : Kind) : Nat :=
  ds.toList.countP (·.kind = kind)

/-- The number of diagnostics in words. -/
def summary (ds : Diagnostics) : Text :=
  if ds.size = 1 then "1 error." else Text.ofNat ds.size ++ " errors."

/-- Every diagnostic on a line of its own, then the summary. -/
def display (ds : Diagnostics) : Text :=
  (ds.toList.flatMap fun d => d.display ++ ['\n']) ++ ds.summary

end Diagnostics

end ScriptLoom
