import ScriptLoom.Diagnostic
import ScriptLoom.Scan

/-!
# Problems of a script

What can be wrong with a script, and the words in which each problem is reported.
-/

namespace ScriptLoom

/-- Something that is wrong with a script. -/
inductive Problem where
  /-- A comment or literal that nothing closes. -/
  | unclosed (region : Region)
  /-- A closing bracket without an opening one. -/
  | strayClosing (bracket : Char)
  /-- An opening brace without a closing one. -/
  | openBrace
  /-- A line with more opening than closing parentheses. -/
  | openParenthesis
  /-- A format call whose arguments are not closed. -/
  | openArguments
  /-- A literal and a percent sign without parenthesised arguments. -/
  | bareFormat
  /-- A library name in the wrong letter case. -/
  | wrongCase (written expected : Text)
  /-- A name that a script may not declare or assign. -/
  | reserved (name : Text)
  /-- A struct without a name. -/
  | unnamedStruct
  /-- A struct whose name is not followed by a brace. -/
  | structWithoutBody (name : Text)
  /-- A struct whose name another one has. -/
  | repeatedStruct (name : Text)
  deriving DecidableEq, Repr

namespace Problem

/-- The kind of a problem. -/
def kind : Problem → Kind
  | .unclosed _ => .unterminated
  | .strayClosing _ => .imbalance
  | .openBrace => .imbalance
  | .openParenthesis => .imbalance
  | .openArguments => .format
  | .bareFormat => .format
  | .wrongCase _ _ => .letterCase
  | .reserved _ => .collision
  | .unnamedStruct => .imbalance
  | .structWithoutBody _ => .imbalance
  | .repeatedStruct _ => .collision

/-- The words in which a problem is reported. -/
def message : Problem → Text
  | .unclosed .comment => "Unclosed comment."
  | .unclosed .string => "Unclosed string literal."
  | .unclosed .character => "Unclosed character literal."
  | .strayClosing bracket => "Unexpected '" ++ [bracket] ++ "'"
  | .openBrace => "Expected corresponding '\x7d'"
  | .openParenthesis => "Unclosed '(', expected corresponding ')'"
  | .openArguments => "expected a matching ')' to close the format arguments"
  | .bareFormat => "Expected a ( after the %.\nLike \"Hello %s\" % (\"John\")"
  | .wrongCase written expected =>
    "Case of \"" ++ written ++ "\" is incorrect, it should be \"" ++ expected ++ "\"."
  | .reserved name => "Cannot override \"" ++ name ++ "\", use a different name."
  | .unnamedStruct => "Expected a name after struct."
  | .structWithoutBody name => "Expected '\x7b' after struct " ++ name ++ "."
  | .repeatedStruct name => "struct \"" ++ name ++ "\" is declared twice."

/-- The diagnostic that reports a problem on a line. -/
def onLine (problem : Problem) (line : Nat) : Diagnostic :=
  .error problem.kind line problem.message

end Problem

end ScriptLoom
