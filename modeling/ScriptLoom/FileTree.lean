import ScriptLoom.Failure
import ScriptLoom.Text.Utf8

/-!
# File trees

The directories and files of a system, from its root on, and the working directory, from which
relative paths lead. There are no links, so that a place has one route. A path leads through
directories only; it may name its last part before there is anything. A working directory that was
removed stays a directory in which nothing can be found or put, and those above it are still
reached from it. Names and paths are limited in size.
-/

namespace ScriptLoom

/-- What a file holds: text, or bytes that may spell no text. -/
inductive Content where
  | text (t : Text)
  | bytes (b : List UInt8)
  deriving DecidableEq, Repr

/-- The text that a file holds. -/
def Content.text? : Content → Option Text
  | .text t => some t
  | .bytes b => Utf8.decode? b

/-- What stands at a place of a file tree. -/
inductive Node where
  | directory
  | file (content : Content) (executable : Bool)
  deriving DecidableEq, Repr

/-- The names on the way from the root to a place. A removed directory has lost its name: an empty
one stands for it on the way to what was in it. -/
abbrev Route := List Text

namespace Route

/-- Whether a place was in a directory that was removed. -/
def isLost (route : Route) : Bool :=
  route.contains []

/-- A route after the removal of a directory, which takes the name from the directory. -/
def detach (removed route : Route) : Route :=
  if removed.isPrefixOf route then removed.dropLast ++ [] :: route.drop removed.length else route

end Route

/-- The nodes of a system, and the way to the working directory. -/
structure FileTree where
  entries : List (Route × Node)
  here : Route
  deriving DecidableEq, Repr

namespace FileTree

/-- What stands at a place; the working directory and those above it are always there. -/
def node? (tree : FileTree) (route : Route) : Option Node :=
  if route.isPrefixOf tree.here then some .directory else tree.entries.lookup route

/-- Puts a node at a place. -/
def insert (tree : FileTree) (route : Route) (node : Node) : FileTree :=
  { tree with entries := tree.entries.filter (·.1 ≠ route) ++ [(route, node)] }

/-- Removes a place and all below it. -/
def erase (tree : FileTree) (route : Route) : FileTree where
  entries := tree.entries.filter fun entry => !route.isPrefixOf entry.1
  here := Route.detach route tree.here

/-- Looking up a key among the entries that a filter of keys keeps. -/
theorem lookup_filter (keep : Route → Bool) (route : Route) (entries : List (Route × Node)) :
    (entries.filter fun entry => keep entry.1).lookup route
      = if keep route then entries.lookup route else none := by
  induction entries with
  | nil => simp
  | cons entry entries ih =>
    obtain ⟨key, node⟩ := entry
    by_cases same : route = key
    · subst same
      by_cases kept : keep route = true
      · simp [kept]
      · simpa [kept] using ih
    · have differ : (route == key) = false := beq_false_of_ne same
      by_cases kept : keep key = true
      · simpa [kept, List.lookup_cons, differ] using ih
      · simpa [kept, List.lookup_cons, differ] using ih

/-- What was put at a place stands there. -/
theorem node?_insert_self (tree : FileTree) {route : Route} (node : Node)
    (off : ¬route <+: tree.here) : (tree.insert route node).node? route = some node := by
  have absent := lookup_filter (· ≠ route) route tree.entries
  simp only [ne_eq, decide_not, decide_true, Bool.not_true, Bool.false_eq_true, if_false] at absent
  rw [node?, if_neg (by simpa [insert] using off)]
  simp only [insert, List.lookup_append, ne_eq, decide_not, absent]
  simp

/-- Putting a node at one place leaves the others alone. -/
theorem node?_insert_of_ne (tree : FileTree) {route other : Route} (node : Node)
    (differ : other ≠ route) : (tree.insert route node).node? other = tree.node? other := by
  have kept := lookup_filter (· ≠ route) other tree.entries
  rw [if_pos (by simpa using differ)] at kept
  have alone : List.lookup other [(route, node)] = none := by
    rw [List.lookup_cons, beq_false_of_ne differ]
    rfl
  simp only [node?, insert, List.lookup_append, kept, alone, Option.or_none]

/-! ### Finding places -/

/-- The most bytes that a name can have. -/
def nameLimit : Nat := 255

/-- The most bytes that a path can have. -/
def pathLimit : Nat := 4095

/-- The place that the parts of a path lead to from a place. -/
def follow (tree : FileTree) (at_ : Route) : List Text → Except SystemError Route
  | [] => .ok at_
  | part :: rest =>
    match tree.node? at_ with
    | none => .error .notFound
    | some .directory =>
      if Path.isVoid part then tree.follow at_ rest
      else if part = Path.up then tree.follow at_.dropLast rest
      else if at_.isLost then .error .notFound
      else if nameLimit < part.size then .error .nameTooLong
      else tree.follow (at_ ++ [part]) rest
    | some _ => .error .notADirectory

/-- The place that a path starts at. -/
def start (tree : FileTree) (path : Path) : Route :=
  if path.isAbsolute then [] else tree.here

/-- The place that a path leads to. -/
def resolve (tree : FileTree) (path : Path) : Except SystemError Route :=
  if path.contains '\x00' then .error .nulInPath
  else if pathLimit < path.size then .error .nameTooLong
  else if path = [] then .error .notFound
  else tree.follow (tree.start path) path.parts

/-- What a path names, with its place. -/
def find (tree : FileTree) (path : Path) : Except SystemError (Route × Node) := do
  let route ← tree.resolve path
  match tree.node? route with
  | some node => return (route, node)
  | none => .error .notFound

/-- Whether a path names something. -/
def has (tree : FileTree) (path : Path) : Bool :=
  (tree.find path).toBool

/-- Whether a path names a directory. -/
def isDirectory (tree : FileTree) (path : Path) : Bool :=
  match tree.find path with
  | .ok (_, .directory) => true
  | _ => false

/-- Whether a path names a file. -/
def isFile (tree : FileTree) (path : Path) : Bool :=
  match tree.find path with
  | .ok (_, .file _ _) => true
  | _ => false

/-! ### Files -/

/-- The text of a file. -/
def readText (tree : FileTree) (path : Path) : Except SystemError Text := do
  match ← tree.find path with
  | (_, .file content _) =>
    match content.text? with
    | some text => return text
    | none => .error .invalidText
  | (_, .directory) => .error .isADirectory

/-- Writes a file. A file that is there keeps being executable. -/
def write (path : Path) (content : Content) (tree : FileTree) : Except SystemError FileTree := do
  let route ← tree.resolve path
  match tree.node? route with
  | none => return tree.insert route (.file content false)
  | some (.file _ executable) => return tree.insert route (.file content executable)
  | some .directory => .error .isADirectory

/-- Makes a file executable. -/
def markExecutable (path : Path) (tree : FileTree) : Except SystemError FileTree := do
  match ← tree.find path with
  | (route, .file content _) => return tree.insert route (.file content true)
  | _ => return tree

/-! ### Directories -/

/-- Makes a directory in one that is there. -/
def makeDirectory (path : Path) (tree : FileTree) : Except SystemError FileTree := do
  let route ← tree.resolve path
  match tree.node? route with
  | none => return tree.insert route .directory
  | some _ => .error .alreadyExists

/-- Whether an attempt to make a directory ends well: the directory was made, or it is there. -/
def settled (tree : FileTree) (path : Path) (error : SystemError) : Except SystemError Unit :=
  if tree.isDirectory path then .ok () else .error error

/-- Makes the first of some directories, each of which lies in the next one, and those that it
needs. What was made stays when a later attempt fails. -/
def makeNested : List Path → FileTree → Except SystemError Unit × FileTree
  | [], tree => (.ok (), tree)
  | path :: above, tree =>
    match tree.makeDirectory path with
    | .ok made => (.ok (), made)
    | .error .notFound =>
      match makeNested above tree with
      | (.error error, tree) => (.error error, tree)
      | (.ok (), tree) =>
        match tree.makeDirectory path with
        | .ok made => (.ok (), made)
        | .error error => (tree.settled path error, tree)
    | .error error => (tree.settled path error, tree)

/-- Makes a directory and those that it lies in. -/
def createDirectories (path : Path) (tree : FileTree) : Except SystemError Unit × FileTree :=
  makeNested path.ancestors tree

/-- Removes a directory and all in it. -/
def removeDirectory (path : Path) (tree : FileTree) : Except SystemError FileTree := do
  match ← tree.find path with
  | (route, .directory) => return tree.erase route
  | _ => .error .notADirectory

end FileTree

end ScriptLoom
