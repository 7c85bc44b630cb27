import ScriptLoom.Action
import ScriptLoom.FileTree

/-!
# Workspaces

A workspace is a system to have a dialogue with: a file tree, the programs that were run and what
was printed. What the programs do is a parameter: the commands that start one, how it ends, and
the files that it leaves.
-/

namespace ScriptLoom

/-- A call and how the program ended. -/
structure Exchange where
  call : Call
  reply : Reply
  deriving DecidableEq, Repr

/-- The programs of a system. A program that is started may change the files however it ends, and
what it does may depend on what was run before. -/
structure Programs where
  /-- Why a command starts no program for a call, or the reply and the files afterwards. -/
  run : (log : List Exchange) → (command : Path) → Call → FileTree →
    Except SystemError (Reply × FileTree)

/-- What a build works in. -/
structure Workspace where
  files : FileTree
  /-- The calls that started a program, in order. -/
  log : List Exchange
  /-- What was printed so far. -/
  output : Text
  deriving DecidableEq, Repr

namespace Workspace

/-- A workspace with given files, in which nothing has been done. -/
def ofFiles (files : FileTree) : Workspace :=
  ⟨files, [], []⟩

/-- A change of the files, which leaves them alone if it fails. -/
def change (w : Workspace) (operation : FileTree → Except SystemError FileTree) :
    Except SystemError Unit × Workspace :=
  match operation w.files with
  | .ok files => (.ok (), { w with files := files })
  | .error error => (.error error, w)

/-- Runs a program. -/
def runProgram (programs : Programs) (w : Workspace) (command : Path) (call : Call) :
    Except SystemError Reply × Workspace :=
  match programs.run w.log command call w.files with
  | .ok (reply, files) => (.ok reply, { w with files := files, log := w.log ++ [⟨call, reply⟩] })
  | .error error => (.error error, w)

/-- How a workspace answers a request, and the workspace afterwards. -/
def answer (programs : Programs) (w : Workspace) : (request : Request) → request.Answer × Workspace
  | .has path => (w.files.has path, w)
  | .isFile path => (w.files.isFile path, w)
  | .readText path => (w.files.readText path, w)
  | .write path text => w.change (FileTree.write path (.text text))
  | .createDirectories path =>
    let made := w.files.createDirectories path
    (made.1, { w with files := made.2 })
  | .removeDirectory path => w.change (FileTree.removeDirectory path)
  | .find path => ((w.files.find path).map fun _ => (), w)
  | .markExecutable path => w.change (FileTree.markExecutable path)
  | .run command call => w.runProgram programs command call
  | .print text => ((), { w with output := w.output ++ text })

end Workspace

variable {α : Type}

/-- The result of a dialogue with a workspace, and the workspace afterwards. -/
def Dialogue.on (programs : Programs) : Dialogue α → Workspace → α × Workspace
  | .done result, w => (result, w)
  | .ask request next, w =>
    let (answer, w) := w.answer programs request
    (next answer).on programs w

/-- The outcome of an action on a workspace, and the workspace afterwards. -/
def Action.on (programs : Programs) (action : Action α) (w : Workspace) :
    Except Failure α × Workspace :=
  Dialogue.on programs action.run w

end ScriptLoom
