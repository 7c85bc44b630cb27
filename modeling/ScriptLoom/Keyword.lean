import ScriptLoom.Text.Basic

/-!
# Keywords

The words that start the lines of a script which are no statements. A keyword includes the space
after it.
-/

namespace ScriptLoom

namespace Keyword

/-- The word that starts an import line. -/
def imports : Text := "import "

/-- The word that starts a global variable. -/
def global : Text := "global "

/-- The word that starts a function. -/
def function : Text := "func "

/-- The word that starts a struct. -/
def record : Text := "struct "

end Keyword

end ScriptLoom
