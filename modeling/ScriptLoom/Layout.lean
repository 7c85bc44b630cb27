import ScriptLoom.Failure
import ScriptLoom.Text.Letter

/-!
# The layout of a build

Where the files of a build go: the artifact beside a directory named for the class, which holds
the generated sources and the compiled classes. A directory that does not outlive the build is
hidden by a dot in front of its name.
-/

namespace ScriptLoom

/-- The extension of scripts. -/
def scriptExtension : Text := "auto"

/-- The class name of a script that can be built. -/
def Path.scriptClass (script : Path) : Except Failure Text :=
  if script.extension? ≠ some scriptExtension then .error (.of (.notAScript script))
  else
    let name := Path.className (script.fileName?.getD [])
    if !name.head?.any Text.isLetter then .error (.of (.nameWithoutLetter name))
    else if name.any Text.isBlank then .error (.of (.nameWithBlank name))
    else .ok name

/-- The places of a build. -/
structure Layout where
  root : Path
  sources : Path
  classes : Path
  artifact : Path
  /-- Whether the root directory is removed at the end. -/
  temporary : Bool
  deriving DecidableEq, Repr

namespace Layout

/-- The layout for a class below a directory. -/
def of (base : Path) (className : Text) (keep : Bool) : Layout :=
  let root := base.child (if keep then className else '.' :: className)
  { root := root
    sources := root.child "gen"
    classes := root.child "class"
    artifact := base.child (className ++ ".jar")
    temporary := !keep }

/-- The directory that a build goes to: the chosen one, or else that of the script. -/
def baseFor (script : Path) (chosen : Option Path) : Path :=
  match chosen with
  | some directory => directory
  | none => if script.parent = [] then ['.'] else script.parent

end Layout

end ScriptLoom
