import ScriptLoom.Text.Blank
import ScriptLoom.Text.Letter

/-!
# Log filters

A log filter consists of directives between commas. A directive names a level, a target, a span in
brackets or a target with a span, and the last three may be followed by an equals sign and a
level. A span may have one field in braces. A directive that ends in a level has no blanks around
it.
-/

namespace ScriptLoom

namespace LogFilter

/-- What is wrong with a filter. -/
inductive Fault where
  /-- A level that is none. -/
  | unknownLevel
  /-- A directive of another form. -/
  | malformed
  deriving DecidableEq, Repr

/-- The words for a fault. -/
def Fault.message : Fault → Text
  | .unknownLevel =>
    "error parsing level filter: expected one of \"off\", \"error\", \"warn\", \"info\", "
      ++ "\"debug\", \"trace\", or a number 0-5"
  | .malformed => "invalid filter directive"

/-- The words for the levels. -/
def levelWords : List String :=
  ["off", "error", "warn", "info", "debug", "trace"]

/-- Whether a word is a number from zero to five; a plus sign may stand in front. -/
def isLevelNumber (word : Text) : Bool :=
  let digits := (Text.dropPrefix? ['+'] word).getD word
  digits ≠ [] && digits.all Char.isDigit
    && digits.foldl (fun n c => 10 * n + (c.toNat - '0'.toNat)) 0 ≤ 5

/-- Whether a word is a level; letter case does not matter, and no word is a level too. -/
def isLevel (word : Text) : Bool :=
  word = [] || isLevelNumber word || levelWords.any (·.toList = word.map Char.toLower)

/-- The level that may follow a span. -/
def levelAfterSpan : Text → Except Fault (Option Text)
  | [] => .ok none
  | '=' :: level => .ok (some level)
  | _ => .error .malformed

/-- The level after the field of a span, given what follows the opening brace. -/
def levelAfterBrace (t : Text) : Except Fault (Option Text) :=
  match Text.cutAt? '}' t with
  | some (_ :: _, ']' :: rest) => levelAfterSpan rest
  | _ => .error .malformed

/-- The level after a span, given what follows the opening bracket. -/
def levelAfterBracket (t : Text) : Except Fault (Option Text) :=
  match t.dropWhile fun c => c ≠ ']' && c ≠ '{' with
  | ']' :: rest => levelAfterSpan rest
  | '{' :: rest => levelAfterBrace rest
  | _ => .error .malformed

/-- Whether a character can start a target or a level. -/
def startsTarget (c : Char) : Bool :=
  c == '-' || c == ':' || c == '_' || Text.isLetterOrNumber c

/-- The level behind the equals sign of a directive. -/
def levelOf (directive : Text) : Except Fault (Option Text) :=
  match directive with
  | [] => .error .malformed
  | '[' :: rest => levelAfterBracket rest
  | c :: _ =>
    if startsTarget c then
      match directive.dropWhile fun c => c ≠ '=' && c ≠ '[' with
      | '=' :: level => .ok (some level)
      | '[' :: rest => levelAfterBracket rest
      | _ => .ok none
    else .error .malformed

/-- Checks a directive. -/
def checkDirective (directive : Text) : Except Fault Unit := do
  match ← levelOf directive.trim with
  | none => return ()
  | some level =>
    if directive = directive.trim && isLevel level then return () else .error .unknownLevel

/-- Checks a filter; nothing between two commas is no directive. -/
def check (filter : Text) : Except Fault Unit :=
  ((filter.splitOn ',').filter (· ≠ [])).forM checkDirective

end LogFilter

end ScriptLoom
