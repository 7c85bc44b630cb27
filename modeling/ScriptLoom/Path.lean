import ScriptLoom.Text.Basic

/-!
# Paths

A path is a text whose parts stand between slashes. Empty parts and single dots say nothing, but
for a dot in front and the slash that makes a path absolute.
-/

namespace ScriptLoom

/-- A path as it is written. -/
abbrev Path := Text

namespace Path

/-- Whether a path starts at the root. -/
def isAbsolute (path : Path) : Bool :=
  path.head? == some '/'

/-- The parts of a path between its slashes. -/
def parts (path : Path) : List Text :=
  path.splitOn '/'

/-- Whether a part says nothing. -/
def isVoid (part : Text) : Bool :=
  part == [] || part == ['.']

/-- The part that leads one directory up. -/
def up : Text := ['.', '.']

/-- Parts, given last one first, without those at the end that say nothing; the first part of a
path always counts. -/
def dropVoid : List Text → List Text
  | part :: before :: rest =>
    if isVoid part then dropVoid (before :: rest) else part :: before :: rest
  | parts => parts

/-- The last part of a path that counts; `none` if that part is a dot, two dots or the root. -/
def fileName? (path : Path) : Option Text :=
  match dropVoid path.parts.reverse with
  | [] => none
  | part :: _ => if isVoid part || part == up then none else some part

/-- The parts of a file name before and after its last dot. A name without a dot, or with none but
a leading one, has no extension. -/
def splitExtension (name : Text) : Text × Option Text :=
  match name.cutAtLast? (· = '.') with
  | some (c :: stem, extension) => (c :: stem, some extension)
  | _ => (name, none)

/-- The file name of a path without its extension. -/
def stem? (path : Path) : Option Text :=
  path.fileName?.map fun name => (splitExtension name).1

/-- The extension of the file name of a path. -/
def extension? (path : Path) : Option Text :=
  path.fileName?.bind fun name => (splitExtension name).2

/-- The path of the directory that holds what a path names. -/
def parent (path : Path) : Path :=
  match dropVoid ((dropVoid path.parts.reverse).drop 1) with
  | [] => []
  | [[]] => if path.isAbsolute then ['/'] else []
  | parts => Text.join ['/'] parts.reverse

/-- The beginnings of a path that end at one of its parts, longest first. Parts are given last one
first, and those that say nothing end no beginning, but for the first part of the path. -/
def beginnings : List Text → List Path
  | [] => []
  | [first] => if first = [] then [] else [first]
  | part :: before :: rest =>
    let shorter := beginnings (before :: rest)
    if isVoid part then shorter else Text.join ['/'] (part :: before :: rest).reverse :: shorter

/-- A path and the paths of the directories that it leads through, innermost first. -/
def ancestors (path : Path) : List Path :=
  beginnings path.parts.reverse

/-- A path below another one; an absolute path stands alone. -/
def child (base path : Path) : Path :=
  if path.isAbsolute then path
  else if base == [] || Text.endsWith base ['/'] then base ++ path
  else base ++ '/' :: path

end Path

/-- The class that a script compiles to: its file name without the extension. -/
def Path.className (path : Path) : Text :=
  path.stem?.getD path

end ScriptLoom
