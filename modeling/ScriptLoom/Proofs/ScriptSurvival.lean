import ScriptLoom.Proofs.BuildSteps
import ScriptLoom.Proofs.FilePlaces
import ScriptLoom.Proofs.ItemBraces

/-! # What a build does to its script

A build writes only files with endings of their own, so it never writes over the script; but it
removes directories, and what lies in them. If the programs that it runs leave the script alone, the
script is lost exactly if it lies in a directory that the build removes (`Builder.Loses`). It never
does if the build has no output directory of its own and goes to the directory of the script.
-/

namespace ScriptLoom

namespace Path

/-- The ending of the file names of scripts. -/
def scriptEnding : Text := '.' :: scriptExtension

private theorem dropVoid_isSuffix (parts : List Text) : dropVoid parts <:+ parts := by
  fun_induction dropVoid parts with
  | case1 part before rest void ih => exact ih.trans (List.suffix_cons _ _)
  | case2 => exact List.suffix_rfl
  | case3 => exact List.suffix_rfl

private theorem exists_of_fileName? {path name : Text} (named : fileName? path = some name) :
    name ∈ parts path ∧ IsName name := by
  rw [fileName?] at named
  split at named
  · cases named
  · next part rest found =>
    split at named
    · cases named
    · next visible =>
      cases named
      have member : name ∈ (parts path).reverse :=
        (dropVoid_isSuffix _).subset (found ▸ List.mem_cons_self)
      refine ⟨List.mem_reverse.mp member, ?_⟩
      simpa [IsName, up] using visible

private theorem splitExtension_eq {name stem extension : Text}
    (split : splitExtension name = (stem, some extension)) : name = stem ++ '.' :: extension := by
  rw [splitExtension] at split
  split at split
  · next c before after cut =>
    cases split
    obtain ⟨dot, isDot, whole⟩ := Text.cutAtLast?_eq_some cut
    obtain rfl : dot = '.' := by simpa using isDot
    exact whole
  · cases split

private theorem isLetter_dot : Text.isLetter '.' = false := by
  decide +kernel

private theorem className_of_isName {name : Text} (inPart : '/' ∉ name) (isName : IsName name) :
    Path.className name = (splitExtension name).1 := by
  have own : fileName? name = some name := by
    rw [fileName?, parts_of_not_mem inPart]
    simpa [dropVoid, IsName, up] using isName
  rw [Path.className, stem?, own]
  rfl

/-- The name of the class and the file name of a script that can be built. -/
theorem exists_of_scriptClass {script : Path} {className : Text}
    (accepted : script.scriptClass = .ok className) :
    script.fileName? = some (className ++ scriptEnding) ∧
      (∃ c, className.head? = some c ∧ c ≠ '.') ∧ '/' ∉ className := by
  rw [scriptClass] at accepted
  split at accepted
  · cases accepted
  · next extended =>
    obtain ⟨name, named, extension⟩ := Option.bind_eq_some_iff.mp (not_not.mp extended)
    obtain ⟨member, isName⟩ := exists_of_fileName? named
    have inPart := not_mem_of_mem_parts member
    have whole : name = (splitExtension name).1 ++ scriptEnding :=
      splitExtension_eq (Prod.ext rfl extension)
    rw [named, Option.getD_some, className_of_isName inPart isName] at accepted
    dsimp only at accepted
    split at accepted
    · cases accepted
    · next letter =>
      split at accepted
      · cases accepted
      · cases accepted
        refine ⟨by rw [named, ← whole], ?_, fun slash => inPart ?_⟩
        · cases first : (splitExtension name).1.head? with
          | none => simp [first] at letter
          | some c =>
            refine ⟨c, rfl, ?_⟩
            rintro rfl
            simp [first, isLetter_dot] at letter
        · rw [whole]
          exact List.mem_append_left _ slash

/-- The names of the build directories of a class. -/
theorem isName_className {className : Text} (first : ∃ c, className.head? = some c ∧ c ≠ '.') :
    IsName className ∧ IsName ('.' :: className) := by
  obtain ⟨c, first, noDot⟩ := first
  obtain ⟨rest, rfl⟩ := List.head?_eq_some_iff.mp first
  simp [IsName, isVoid, up, noDot]

private theorem dropVoid_eq_nil {parts : List Text} (empty : dropVoid parts = []) :
    parts = [] := by
  fun_induction dropVoid parts with
  | case1 part before rest void ih => cases ih empty
  | case2 => cases empty
  | case3 => exact empty

/-- A name at the end of a path is not dropped. -/
theorem dropVoid_cons {part : Text} (isName : IsName part) (rest : List Text) :
    dropVoid (part :: rest) = part :: rest := by
  cases rest <;> simp [dropVoid, isName.1]

private theorem walk_dropVoid (at_ : Route) (parts : List Text) :
    at_.walk (dropVoid parts).reverse = at_.walk parts.reverse := by
  fun_induction dropVoid parts with
  | case1 part before rest void ih =>
    have last : (part :: before :: rest).reverse = (before :: rest).reverse ++ [part] :=
      List.reverse_cons
    rw [ih, last, Route.walk_concat_void void]
  | case2 => rfl
  | case3 => rfl

/-- A path starts at the root if its first part of several is empty. -/
private theorem isAbsolute_iff {path : Path} :
    path.isAbsolute = true ↔ ∃ rest, rest ≠ [] ∧ path.parts = [] :: rest := by
  cases path with
  | nil => simp [isAbsolute, parts]
  | cons c path =>
    have some_ := List.splitOn_ne_nil '/' path
    rw [parts, List.splitOn_cons_eq_if_modifyHead]
    by_cases slash : c = '/'
    · simp [isAbsolute, slash, some_]
    · obtain ⟨first, rest, split⟩ := List.exists_cons_of_ne_nil some_
      simp [isAbsolute, slash, split]

/-- The directory of a path starts where the path does. -/
private theorem isAbsolute_join {path last : Text} {front kept : List Text}
    (split : parts path = front ++ [last]) (start : kept <+: front)
    (parts_eq : parts (Text.join ['/'] kept) = kept) (many : kept ≠ []) (more : kept ≠ [[]]) :
    isAbsolute (Text.join ['/'] kept) = isAbsolute path := by
  rw [Bool.eq_iff_iff, isAbsolute_iff, isAbsolute_iff, parts_eq, split]
  obtain ⟨first, kept, rfl⟩ := List.exists_cons_of_ne_nil many
  obtain ⟨behind, rfl⟩ := start
  constructor
  · rintro ⟨rest, nonempty, same⟩
    obtain ⟨rfl, rfl⟩ := List.cons.inj same
    exact ⟨kept ++ behind ++ [last], by simp, by simp⟩
  · rintro ⟨rest, nonempty, same⟩
    obtain ⟨rfl, -⟩ := List.cons.inj same
    exact ⟨kept, by rintro rfl; exact more rfl, rfl⟩

/-- The place of the directory of a path that ends in a name. -/
private theorem place_parent (tree : FileTree) {path last : Text} {front : List Text}
    (isName : IsName last) (split : parts path = front ++ [last]) :
    tree.place (parent path) = (tree.start path).walk front := by
  have start : (dropVoid front.reverse).reverse <+: front := by
    rw [← List.reverse_suffix, List.reverse_reverse]
    exact dropVoid_isSuffix _
  have walked := walk_dropVoid (tree.start path) front.reverse
  rw [List.reverse_reverse] at walked
  rw [parent, split, List.reverse_append, List.reverse_singleton, List.singleton_append,
    dropVoid_cons isName, List.drop_one, List.tail_cons, ← walked]
  split
  · next empty =>
    -- The path is a mere name.
    obtain rfl : front = [] := by simpa using dropVoid_eq_nil empty
    have relative : isAbsolute path = false := by
      rw [← Bool.not_eq_true, isAbsolute_iff, split]
      rintro ⟨rest, nonempty, same⟩
      exact nonempty (List.cons.inj same).2.symm
    rw [empty, FileTree.start, relative]
    rfl
  · next single =>
    rw [single]
    cases absolute : isAbsolute path <;> simp [FileTree.place, FileTree.start, absolute]
    · rfl
    · rfl
  · next many more =>
    have inside : ∀ part ∈ (dropVoid front.reverse).reverse, '/' ∉ part := fun part member =>
      not_mem_of_mem_parts (split ▸ List.mem_append_left _ (start.subset member))
    have parts_eq : parts (Text.join ['/'] (dropVoid front.reverse).reverse) =
        (dropVoid front.reverse).reverse := by
      rw [parts, Text.join, List.splitOn_intercalate _ inside (by simpa using many)]
    rw [FileTree.place, FileTree.start, FileTree.start, parts_eq,
      isAbsolute_join split start parts_eq (by simpa using many) (by simpa using more)]

/-- A build without an output directory goes to the directory of its script. -/
theorem place_baseFor (tree : FileTree) (script : Path) :
    tree.place (Layout.baseFor script none) = tree.place script.parent := by
  rw [Layout.baseFor]
  split
  · next empty =>
    rw [empty]
    rfl
  · rfl

end Path

/-- A file that is found by its path is at a place of names, and the path ends in its name, so that
it spells a place in its directory in every tree. -/
theorem FileTree.exists_of_find {tree : FileTree} {path : Path} {place : Route} {content : Content}
    {executable : Bool} (found : tree.find path = .ok (place, .file content executable)) :
    place = tree.place path ∧ tree.Rooted place ∧ place.Named ∧ ∃ name, path.fileName? = some name ∧
      ∀ other : FileTree, other.place path = other.place path.parent ++ [name] := by
  obtain ⟨resolved, file⟩ := find_eq_ok.mp found
  obtain ⟨place_eq, rooted⟩ := eq_place_of_resolve resolved
  obtain ⟨-, -, -, followed⟩ := resolve_eq_ok.mp resolved
  rcases List.eq_nil_or_concat path.parts with empty | ⟨front, last, split⟩
  · exact absurd empty (List.splitOn_ne_nil _ _)
  rw [List.concat_eq_append] at split
  rw [split] at followed
  obtain ⟨middle, before, step⟩ := follow_append_eq_ok.mp followed
  obtain ⟨-, above⟩ := eq_walk_of_follow before (rooted_start tree path)
  obtain ⟨directory, ⟨-, ended⟩ | ⟨-, ended⟩ | ⟨isName, named, -, ended⟩⟩ :=
    follow_cons_eq_ok.mp step
  · cases ended
    rw [directory] at file
    cases file
  · -- Two dots lead to a directory.
    cases ended
    rw [above.node?_dropLast] at file
    cases file
  · cases ended
    refine ⟨place_eq, rooted, (Route.named_concat isName).mpr named, last, ?_, fun other => ?_⟩
    · rw [Path.fileName?, split, List.reverse_append, List.reverse_singleton,
        List.singleton_append, Path.dropVoid_cons isName]
      simpa [Path.IsName] using isName
    · rw [Path.place_parent other isName split, FileTree.place, split,
        Route.walk_concat_name isName]

/-! ### What is written -/

namespace Path

/-- The endings of the files that a build writes itself. -/
private def outputEndings : List Text := [".java", ".jar"]

/-- A path with the ending of a file that a build writes itself. -/
def IsOutput (path : Path) : Prop :=
  ∃ stem, ∃ ending ∈ outputEndings, path = stem ++ ending

private theorem isOutput_child (base : Path) (stem : Text) {ending : Text}
    (output : ending ∈ outputEndings) : IsOutput (base.child (stem ++ ending)) := by
  rw [child]
  split
  · exact ⟨stem, ending, output, rfl⟩
  · split
    · exact ⟨base ++ stem, ending, output, by rw [List.append_assoc]⟩
    · exact ⟨base ++ '/' :: stem, ending, output, by simp⟩

end Path

/-- The place of a script. -/
def Route.IsScript (place : Route) : Prop :=
  ∃ stem, place.getLast? = some (stem ++ Path.scriptEnding)

private theorem Route.IsScript.ne_of_resolve {place route : Route} {tree : FileTree} {path : Path}
    (script : place.IsScript) (output : path.IsOutput) (found : tree.resolve path = .ok route) :
    route ≠ place := by
  rintro rfl
  obtain ⟨stem, ending, member, rfl⟩ := output
  obtain ⟨name, last⟩ := script
  have shape : ∀ ending ∈ Path.outputEndings,
      '/' ∉ ending ∧ 2 < ending.length ∧ ending.getLast? ≠ some 'o' := by
    decide +kernel
  obtain ⟨inPart, long, differ⟩ := shape ending member
  obtain ⟨other, same⟩ := FileTree.exists_getLast?_of_resolve inPart long found
  have equal : name ++ Path.scriptEnding = other ++ ending := Option.some.inj (last.symm.trans same)
  have nonempty : ending ≠ [] := List.ne_nil_of_length_pos (Nat.zero_lt_of_lt long)
  apply differ
  rw [← List.getLast?_append_of_ne_nil other nonempty, ← equal]
  simp [Path.scriptEnding, scriptExtension]

namespace FileTree

/-- No file stands at a place. -/
def Vacant (place : Route) (tree : FileTree) : Prop :=
  ∀ content executable, tree.node? place ≠ some (.file content executable)

private theorem Vacant.of_spares {place : Route} {tree after : FileTree}
    (vacant : Vacant place tree) (spares : Spares place tree after) : Vacant place after := by
  intro content executable
  rw [spares.same]
  exact vacant content executable

end FileTree

section Tolerated

variable {programs : Programs} {place : Route} {layout : Layout} {files tree : FileTree}

/-- The steps of a build spare its script. -/
private theorem tolerates_spares (spare : programs.Spare layout files place)
    (script : place.IsScript) (output : layout.artifact.IsOutput) (stays : layout.Stays files tree)
    (occupied : tree.node? place ≠ none) (units : List NamedSource) :
    layout.Tolerates programs units (tree.Spares place) where
  made {middle route} spared free := by
    refine spared.trans (.of_insert ?_ (by simp [free]))
    rintro rfl
    exact occupied (spared.same.symm.trans free)
  written _ spared written := spared.trans (.of_write written fun _ found =>
    script.ne_of_resolve (Path.isOutput_child _ _ (by decide +kernel)) found)
  compiled _ spared ran := spared.trans (spare ran rfl (stays.trans spared))
  packed spared ran := spared.trans (spare ran ⟨rfl, rfl⟩ (stays.trans spared))
  marked spared marked := spared.trans (.of_markExecutable marked fun _ found =>
    script.ne_of_resolve output found)

/-- The steps of a build put no file where its script was. -/
private theorem tolerates_vacant (spare : programs.Spare layout files place)
    (script : place.IsScript) (output : layout.artifact.IsOutput) (units : List NamedSource) :
    layout.Tolerates programs units
      (fun tree => layout.Stays files tree ∧ FileTree.Vacant place tree) := by
  have spared : ∀ {tree after : FileTree}, layout.Stays files tree ∧ FileTree.Vacant place tree →
      tree.Spares place after → layout.Stays files after ∧ FileTree.Vacant place after :=
    fun holds spares => ⟨holds.1.trans spares, holds.2.of_spares spares⟩
  refine ⟨fun {tree route} holds free => ⟨?_, fun content executable => ?_⟩,
    fun _ holds written => spared holds (.of_write written fun _ found =>
      script.ne_of_resolve (Path.isOutput_child _ _ (by decide +kernel)) found),
    fun _ holds ran => spared holds (spare ran rfl holds.1),
    fun holds ran => spared holds (spare ran ⟨rfl, rfl⟩ holds.1),
    fun holds marked => spared holds (.of_markExecutable marked fun _ found =>
      script.ne_of_resolve output found)⟩
  · exact ⟨holds.1.classes, holds.1.artifact⟩
  · -- A directory that is made is no file.
    by_cases same : place = route
    · subst same
      rw [FileTree.node?_insert_self tree _ (FileTree.not_isPrefix_here free (by simp))]
      simp
    · rw [FileTree.node?_insert_of_ne tree _ same]
      exact holds.2 content executable

end Tolerated

/-! ### What is removed -/

/-- A path of a name in a directory. -/
def Path.IsIn (path base : Path) : Prop :=
  ∃ name, '/' ∉ name ∧ Path.IsName name ∧ path = base.child name

namespace FileTree

variable {tree after : FileTree} {path base : Path} {place : Route}

/-- A name in a directory has a place in that of the directory. -/
theorem exists_place_eq (tree : FileTree) (isIn : path.IsIn base) :
    ∃ name, Path.IsName name ∧ tree.place path = tree.place base ++ [name] := by
  obtain ⟨name, inPart, isName, rfl⟩ := isIn
  exact ⟨name, isName, tree.place_child inPart isName base⟩

/-- If a directory keeps its place, so do the names in it. -/
theorem place_eq_of_isIn {tree other : FileTree} (isIn : path.IsIn base)
    (same : tree.place base = other.place base) : tree.place path = other.place path := by
  obtain ⟨name, inPart, isName, rfl⟩ := isIn
  rw [tree.place_child inPart isName, other.place_child inPart isName, same]

/-- What is found as a name in a directory has a route of names. -/
theorem named_of_resolve {route : Route} (isIn : path.IsIn base)
    (found : tree.resolve path = .ok route) : route.Named ∧ route ≠ [] := by
  obtain ⟨rfl, -⟩ := eq_place_of_resolve found
  obtain ⟨name, inPart, isName, rfl⟩ := isIn
  rw [tree.place_child inPart isName]
  exact ⟨(Route.named_concat isName).mpr (node?_of_resolve_child inPart isName found).2, by simp⟩

/-- A directory is removed if it is found. -/
theorem removeDirectory_eq_ok :
    tree.removeDirectory path = .ok after ↔
      ∃ route, tree.find path = .ok (route, .directory) ∧ after = tree.erase route := by
  rw [removeDirectory]
  rcases tree.find path with error | ⟨route, _ | _⟩ <;>
    simp [bind, Except.bind, pure, Except.pure, eq_comm]

/-- A directory that is removed loses what is in it, and nothing else is lost. -/
theorem node?_of_removeDirectory (isIn : path.IsIn base)
    (removed : tree.removeDirectory path = .ok after) (place : Route) :
    (tree.place path <+: place → after.node? place = none) ∧
      (place.Named → ¬tree.place path <+: place → after.node? place = tree.node? place) := by
  obtain ⟨route, found, rfl⟩ := removeDirectory_eq_ok.mp removed
  have resolved := (find_eq_ok.mp found).1
  obtain ⟨named, below⟩ := named_of_resolve isIn resolved
  obtain ⟨rfl, -⟩ := eq_place_of_resolve resolved
  exact ⟨node?_erase_of_isPrefix tree below named, node?_erase_of_not_isPrefix tree below⟩

/-- What is not in a directory stays when it is removed. -/
theorem node?_removeQuietly (isIn : path.IsIn base) (named : place.Named)
    (uncovered : ¬tree.place path <+: place) :
    (tree.removeQuietly path).node? place = tree.node? place := by
  rw [removeQuietly]
  cases removed : tree.removeDirectory path with
  | error error => rfl
  | ok after => exact (node?_of_removeDirectory isIn removed place).2 named uncovered

/-- Nothing is left at a place in a directory that is there and is removed. -/
theorem node?_removeQuietly_of_isPrefix (isIn : path.IsIn base)
    (covers : tree.place path <+: place)
    (found : tree.find path = .ok (tree.place path, .directory)) :
    (tree.removeQuietly path).node? place = none := by
  have removed : tree.removeDirectory path = .ok (tree.erase (tree.place path)) :=
    removeDirectory_eq_ok.mpr ⟨_, found, rfl⟩
  rw [removeQuietly, removed]
  exact (node?_of_removeDirectory isIn removed place).1 covers

private theorem Vacant.removeQuietly (vacant : Vacant place tree) (isIn : path.IsIn base)
    (named : place.Named) : Vacant place (tree.removeQuietly path) := by
  rw [FileTree.removeQuietly]
  cases removed : tree.removeDirectory path with
  | error error => exact vacant
  | ok after =>
    intro content executable
    obtain ⟨gone, same⟩ := node?_of_removeDirectory isIn removed place
    by_cases covers : tree.place path <+: place
    · exact fun file => by cases (gone covers).symm.trans file
    · exact fun file => vacant content executable ((same named covers).symm.trans file)

end FileTree

/-- A layout in a directory: its own directory and its artifact are names in it, and the others are
names in its own directory. -/
structure Layout.Nested (layout : Layout) (base : Path) : Prop where
  root : layout.root.IsIn base
  sources : layout.sources = layout.root.child "gen"
  classes : layout.classes = layout.root.child "class"
  artifact : layout.artifact.IsIn base
  output : layout.artifact.IsOutput

namespace Layout

/-- The layout of a class is nested in the directory that it is for. -/
theorem nested_of {className : Text} (first : ∃ c, className.head? = some c ∧ c ≠ '.')
    (inPart : '/' ∉ className) (base : Path) (keep : Bool) :
    (Layout.of base className keep).Nested base := by
  obtain ⟨visible, hidden⟩ := Path.isName_className first
  refine ⟨⟨if keep then className else '.' :: className, ?_, ?_, rfl⟩, rfl, rfl,
    ⟨className ++ ".jar", by simpa using inPart, Path.isName_of_length (by simp), rfl⟩,
    Path.isOutput_child base className (by decide +kernel)⟩
  · split
    · exact inPart
    · simpa using inPart
  · split
    · exact visible
    · exact hidden

namespace Nested

variable {layout : Layout} {base : Path} (nested : layout.Nested base) {place : Route}
  {files cleared : FileTree}

include nested

private theorem root_ne_nil : layout.root ≠ [] := by
  obtain ⟨name, inPart, isName, root⟩ := nested.root
  obtain ⟨slash, -, whole⟩ := Path.exists_child_eq base
  rw [root, whole name (Path.isAbsolute_of_not_mem inPart)]
  intro empty
  exact isName.ne_nil (List.append_eq_nil_iff.mp (List.append_eq_nil_iff.mp empty).2).2

/-- The directory of the sources is in that of the build. -/
theorem sources_isIn : layout.sources.IsIn layout.root :=
  ⟨_, by decide, by constructor <;> decide, nested.sources⟩

/-- The directory of the classes is in that of the build. -/
theorem classes_isIn : layout.classes.IsIn layout.root :=
  ⟨_, by decide, by constructor <;> decide, nested.classes⟩

/-- What a build discards is its directory or is in it. -/
theorem isIn_of_mem {b : Builder} {directory : Path} (member : directory ∈ b.discarded layout) :
    ∃ above, directory.IsIn above ∧ (above = base ∧ directory = layout.root ∨
      above = layout.root) := by
  rcases Builder.mem_discarded_iff.mp member with ⟨-, rfl⟩ | ⟨-, -, rfl⟩ | ⟨-, -, rfl⟩
  · exact ⟨base, nested.root, .inl ⟨rfl, rfl⟩⟩
  · exact ⟨layout.root, nested.sources_isIn, .inr rfl⟩
  · exact ⟨layout.root, nested.classes_isIn, .inr rfl⟩

/-- What a directory of a build covers, its root directory covers. -/
theorem root_isPrefix (tree : FileTree) {b : Builder} {directory : Path}
    (member : directory ∈ b.discarded layout) :
    tree.place layout.root <+: tree.place directory := by
  obtain ⟨above, isIn, ⟨-, rfl⟩ | rfl⟩ := nested.isIn_of_mem member
  · exact List.prefix_rfl
  · obtain ⟨name, -, place_eq⟩ := tree.exists_place_eq isIn
    rw [place_eq]
    exact List.prefix_append _ _

/-- Clearing the build directory does not move the directory that it is in. -/
theorem place_clear (clears : layout.clear files = .ok cleared) :
    cleared.place base = files.place base := by
  rw [Layout.clear] at clears
  split at clears
  · obtain ⟨route, found, rfl⟩ := FileTree.removeDirectory_eq_ok.mp clears
    obtain ⟨rfl, -⟩ := FileTree.eq_place_of_resolve (FileTree.find_eq_ok.mp found).1
    obtain ⟨name, -, place_eq⟩ := files.exists_place_eq nested.root
    refine (files.place_erase _ base).resolve_right ?_
    rintro ⟨covers, -⟩
    have longer := covers.length_le
    rw [place_eq, List.length_append, List.length_singleton] at longer
    omega
  · cases clears
    rfl

/-- If the directory that a layout is in keeps its place, so do the results of the build. -/
theorem stays {tree other : FileTree} (same : other.place base = tree.place base) :
    layout.Stays tree other :=
  ⟨FileTree.place_eq_of_isIn nested.classes_isIn (FileTree.place_eq_of_isIn nested.root same),
    FileTree.place_eq_of_isIn nested.artifact same⟩

/-- If the directory that a layout is in keeps its place, so do those that a build discards. -/
theorem place_eq_of_mem {tree other : FileTree} (same : tree.place base = other.place base)
    {b : Builder} {directory : Path} (member : directory ∈ b.discarded layout) :
    tree.place directory = other.place directory := by
  have root := FileTree.place_eq_of_isIn nested.root same
  obtain ⟨above, isIn, ⟨rfl, rfl⟩ | rfl⟩ := nested.isIn_of_mem member
  · exact root
  · exact FileTree.place_eq_of_isIn isIn root

end Nested

end Layout

/-- A path of a name in a directory is the first of its ancestors. -/
theorem Path.ancestors_eq {path base : Path} (isIn : path.IsIn base) :
    ∃ above, path.ancestors = path :: above := by
  obtain ⟨name, inPart, isName, rfl⟩ := isIn
  obtain ⟨front, parts, -⟩ := Path.exists_parts_child inPart base
  have whole : Text.join ['/'] (front ++ [name]) = base.child name := by
    rw [← parts]
    exact List.intercalate_splitOn '/'
  rw [ancestors, parts, List.reverse_append, List.reverse_singleton, List.singleton_append]
  cases before : front.reverse with
  | nil =>
    obtain rfl : front = [] := by simpa using before
    refine ⟨[], ?_⟩
    rw [← whole, beginnings, if_neg isName.ne_nil]
    simp [Text.join]
  | cons part rest =>
    have front_eq : front = (part :: rest).reverse := by rw [← before, List.reverse_reverse]
    refine ⟨beginnings (part :: rest), ?_⟩
    rw [beginnings, if_neg (by simp [isName.1]), List.reverse_cons, ← front_eq, whole]

/-- A directory that was made as a name in another one is at its place. -/
theorem FileTree.find_of_createDirectories {tree made : FileTree} {path base : Path}
    (isIn : path.IsIn base) (makes : tree.createDirectories path = (.ok (), made)) :
    made.find path = .ok (made.place path, .directory) := by
  obtain ⟨above, ancestors⟩ := Path.ancestors_eq isIn
  rw [createDirectories, ancestors] at makes
  obtain ⟨route, found⟩ := find_of_makeNested makes
  obtain ⟨rfl, -⟩ := eq_place_of_resolve (find_eq_ok.mp found).1
  exact found

namespace Builder

open ScriptLoom.Action

/-- A script is lost in a build: a program is made of it, and it lies in the build directory that is
cleared before or in a directory that is removed at the end. -/
def Loses (b : Builder) (script : Path) (layout : Layout) (files : FileTree) (place : Route) :
    Prop :=
  ∃ program, b.Accepts script files program ∧
    (files.has layout.root = true ∧ files.place layout.root <+: place ∨
      (∃ staged, b.Stages layout program files staged) ∧
        ∃ directory ∈ b.discarded layout, files.place directory <+: place)

variable {b : Builder} {programs : Programs} {script base : Path} {layout : Layout}
  {program : Program} {w : Workspace} {place : Route} {files : FileTree}

/-- A build discards at most one directory. -/
theorem discarded_eq (known : layout.temporary = !b.config.keepsOutput) :
    b.discarded layout = [] ∨ ∃ directory, b.discarded layout = [directory] := by
  rw [discarded, known, Config.keepsOutput]
  cases b.config.keepSources <;> cases b.config.keepClasses <;> simp

/-- The clean-up leaves what is in no directory that it removes. -/
theorem node?_tidied (nested : layout.Nested base)
    (known : layout.temporary = !b.config.keepsOutput) (named : place.Named)
    (uncovered : ¬∃ directory ∈ b.discarded layout, files.place directory <+: place) :
    (b.tidied layout files).node? place = files.node? place := by
  rw [tidied]
  rcases discarded_eq known with none | ⟨directory, one⟩
  · rw [none]
    rfl
  · have member : directory ∈ b.discarded layout := by simp [one]
    obtain ⟨above, isIn, -⟩ := nested.isIn_of_mem member
    rw [one, List.foldl_cons, List.foldl_nil]
    exact FileTree.node?_removeQuietly isIn named fun covers => uncovered ⟨_, member, covers⟩

/-- The clean-up removes what lies in a directory that it finds. -/
theorem node?_tidied_of_isPrefix (nested : layout.Nested base)
    (known : layout.temporary = !b.config.keepsOutput) {directory : Path}
    (member : directory ∈ b.discarded layout) (covers : files.place directory <+: place)
    (found : files.find directory = .ok (files.place directory, .directory)) :
    (b.tidied layout files).node? place = none := by
  have single : b.discarded layout = [directory] := by
    rcases discarded_eq known with none | ⟨other, one⟩
    · simp [none] at member
    · rw [one] at member ⊢
      rw [List.mem_singleton.mp member]
  obtain ⟨above, isIn, -⟩ := nested.isIn_of_mem member
  rw [tidied, single, List.foldl_cons, List.foldl_nil]
  exact FileTree.node?_removeQuietly_of_isPrefix isIn covers found

private theorem vacant_tidied (nested : layout.Nested base)
    (vacant : FileTree.Vacant place files) (named : place.Named) :
    FileTree.Vacant place (b.tidied layout files) := by
  have each : ∀ directory ∈ b.discarded layout, ∀ tree, FileTree.Vacant place tree →
      FileTree.Vacant place (tree.removeQuietly directory) := by
    intro directory member tree vacant
    obtain ⟨above, isIn, -⟩ := nested.isIn_of_mem member
    exact vacant.removeQuietly isIn named
  exact List.foldlRecOn (motive := FileTree.Vacant place) _ _ vacant
    fun tree vacant directory member => each directory member tree vacant

/-- The directory of the classes was made, so it is there with that of the build as long as no
directory is removed. -/
theorem find_classes (nested : layout.Nested base) {inside : Route → Prop}
    {ready ending : FileTree} (made : files.createDirectories layout.classes = (.ok (), ready))
    (writes : ready.Writes inside ending) :
    ending.find layout.classes = .ok (ending.place layout.classes, .directory) ∧
      ending.find layout.root = .ok (ending.place layout.root, .directory) := by
  obtain ⟨resolved, there⟩ := FileTree.find_eq_ok.mp
    (FileTree.find_of_createDirectories nested.classes_isIn made)
  have way := writes.resolve_eq_ok resolved
  have below := way
  rw [nested.classes] at below
  have isName : Path.IsName "class" := by constructor <;> decide
  refine ⟨FileTree.find_eq_ok.mpr ⟨?_, ?_⟩, FileTree.find_eq_ok.mpr
    ⟨FileTree.resolve_of_resolve_child (by decide) isName nested.root_ne_nil below,
      (FileTree.node?_of_resolve_child (by decide) isName below).1⟩⟩
  · rwa [writes.place_eq]
  · rw [writes.place_eq]
    exact writes.directories _ there

private theorem resolve_sources (nested : layout.Nested base) {node : Node}
    (found : files.find layout.classes = .ok (files.place layout.classes, node)) :
    files.resolve layout.sources = .ok (files.place layout.sources) := by
  have isName : Path.IsName "gen" ∧ Path.IsName "class" := by
    constructor <;> constructor <;> decide
  have below := (FileTree.find_eq_ok.mp found).1
  rw [nested.classes] at below
  rw [nested.sources, files.place_child (by decide) isName.1]
  exact FileTree.resolve_sibling (by decide) isName.2 (by decide) isName.1 (by decide)
    (by decide) (by decide) below

private theorem place_sources_ne (nested : layout.Nested base) (script : place.IsScript) :
    files.place layout.sources ≠ place := by
  rintro rfl
  obtain ⟨stem, named⟩ := script
  have isName : Path.IsName "gen" := by constructor <;> decide
  rw [nested.sources, files.place_child (by decide) isName, List.getLast?_concat] at named
  have sizes := congrArg List.length (Option.some.inj named)
  simp [Path.scriptEnding, scriptExtension] at sizes

/-- A directory that covers the place of a file and is discarded is there when the build ends. -/
private theorem find_discarded (nested : layout.Nested base) {ready ending : FileTree}
    (script : place.IsScript) (rooted : ending.Rooted place)
    (made : files.createDirectories layout.classes = (.ok (), ready))
    (spares : ready.Spares place ending) {directory : Path}
    (member : directory ∈ b.discarded layout) (covers : ending.place directory <+: place) :
    ending.find directory = .ok (ending.place directory, .directory) := by
  obtain ⟨classes, root⟩ := find_classes nested made spares
  rcases mem_discarded_iff.mp member with ⟨-, rfl⟩ | ⟨-, -, rfl⟩ | ⟨-, -, rfl⟩
  · exact root
  · exact FileTree.find_eq_ok.mpr ⟨resolve_sources nested classes,
      rooted _ covers (place_sources_ne nested script)⟩
  · exact classes

private theorem exists_clear_of_isPrefix (nested : layout.Nested base)
    (rooted : files.Rooted place) (apart : files.place layout.root ≠ place)
    (there : files.has layout.root = true) (covers : files.place layout.root <+: place) :
    ∃ cleared, layout.clear files = .ok cleared ∧ cleared.node? place = none := by
  obtain ⟨route, node, found⟩ : ∃ route node, files.find layout.root = .ok (route, node) := by
    rw [FileTree.has] at there
    cases found : files.find layout.root with
    | error error =>
      rw [found] at there
      cases there
    | ok result => exact ⟨result.1, result.2, rfl⟩
  have resolved := (FileTree.find_eq_ok.mp found).1
  obtain ⟨rfl, -⟩ := FileTree.eq_place_of_resolve resolved
  have directory : files.find layout.root = .ok (files.place layout.root, .directory) :=
    FileTree.find_eq_ok.mpr ⟨resolved, rooted _ covers apart⟩
  have removed : files.removeDirectory layout.root = .ok (files.erase (files.place layout.root)) :=
    FileTree.removeDirectory_eq_ok.mpr ⟨_, directory, rfl⟩
  refine ⟨_, by rw [Layout.clear, if_pos there, removed], ?_⟩
  exact (FileTree.node?_of_removeDirectory nested.root removed place).1 covers

/-- Clearing the build directory leaves what is not in it. -/
theorem node?_clear (nested : layout.Nested base) (named : place.Named) {cleared : FileTree}
    (clears : layout.clear files = .ok cleared)
    (uncovered : ¬(files.has layout.root = true ∧ files.place layout.root <+: place)) :
    cleared.node? place = files.node? place := by
  rw [Layout.clear] at clears
  split at clears
  · next there =>
    exact (FileTree.node?_of_removeDirectory nested.root clears place).2 named fun covers =>
      uncovered ⟨there, covers⟩
  · cases clears
    rfl

/-- The build directory is cleared and made before anything else is put into it. -/
private theorem exists_ready_of_stages (programs : Programs) {staged : FileTree}
    (stages : b.Stages layout program files staged) :
    ∃ cleared ready, layout.clear files = .ok cleared ∧
      cleared.createDirectories layout.classes = (.ok (), ready) ∧
        ∀ property : FileTree → Prop, layout.Tolerates programs program.units property →
          property ready → property staged := by
  obtain ⟨ready, ⟨cleared, clears, made⟩, written⟩ := stages
  refine ⟨cleared, ready, clears, made, fun property tolerates holds => ?_⟩
  split at written
  · obtain ⟨directory, makes, writes⟩ := written
    have created := tolerates.createDirectories layout.sources holds
    rw [makes] at created
    exact tolerates.of_writeUnits writes created
  · rwa [written]

/-- The script is gone once the directory it lies in was cleared. -/
private theorem vacant_buildInto (nested : layout.Nested base)
    (spare : programs.Spare layout w.files place) (isScript : place.IsScript)
    (named : place.Named) (accepts : b.Accepts script w.files program) {cleared : FileTree}
    (clears : layout.clear w.files = .ok cleared) (gone : cleared.node? place = none) :
    FileTree.Vacant place ((b.buildInto script layout).on programs w).2.files := by
  rcases buildInto_cases programs layout accepts with
    ⟨⟨error, fails⟩, -⟩ | ⟨cleared', ending, clears', reached, ended⟩
  · cases clears.symm.trans fails
  · cases clears.symm.trans clears'
    obtain ⟨-, vacant⟩ := reached _
      (tolerates_vacant spare isScript nested.output program.units)
      ⟨nested.stays (nested.place_clear clears), by simp [FileTree.Vacant, gone]⟩
    rcases ended with ended | ended <;> rw [ended]
    · exact vacant
    · exact vacant_tidied nested vacant named

/-- A script whose directory was not cleared is lost only in the clean-up at the end. -/
private theorem node?_buildInto_of_clear (nested : layout.Nested base)
    (known : layout.temporary = !b.config.keepsOutput)
    (spare : programs.Spare layout w.files place) (isScript : place.IsScript)
    (named : place.Named) {text : Text}
    (read : w.files.readText script = .ok text)
    (made : Program.ofScript text (script.fileName?.getD []) b.catalog = .ok program)
    {cleared : FileTree} (clears : layout.clear w.files = .ok cleared) {node : Node}
    (there : cleared.node? place = some node)
    (rooted : w.files.place layout.root <+: place → cleared.Rooted place) :
    ((b.buildInto script layout).on programs w).2.files.node? place = some node ↔
      ¬((∃ staged, b.Stages layout program w.files staged) ∧
        ∃ directory ∈ b.discarded layout, w.files.place directory <+: place) := by
  have occupied : cleared.node? place ≠ none := by simp [there]
  rw [files_buildInto read made]
  rcases stage_cases b programs layout program w with
    ⟨files, stages, done⟩ | ⟨unstaged, failure, after, done⟩
  · rw [done]
    obtain ⟨other, ready, clears', makes, later⟩ :=
      exists_ready_of_stages programs stages
    obtain rfl : cleared = other := Except.ok.inj (clears.symm.trans clears')
    have first : cleared.Spares place ready := by
      have spared := FileTree.spares_createDirectories layout.classes occupied
      rwa [makes] at spared
    have settled := nested.place_clear clears
    have tolerates := tolerates_spares spare isScript nested.output
      (nested.stays ((first.place_eq base).trans settled)) (by rwa [first.same]) program.units
    have second : ready.Spares place
        ((b.makeArtifact layout (locatorFor script text program) program).on programs
          { w with files := files }).2.files :=
      tolerates.makeArtifact b _ _ (later _ tolerates (.refl _ _))
    dsimp only
    generalize ((b.makeArtifact layout (locatorFor script text program) program).on programs
      { w with files := files }).2.files = ending at second
    have spared : cleared.Spares place ending := first.trans second
    -- All directories of the build are where they were at the beginning.
    have places : ∀ directory ∈ b.discarded layout,
        ending.place directory = w.files.place directory := fun directory member =>
      nested.place_eq_of_mem ((spared.place_eq base).trans settled) member
    by_cases covered : ∃ directory ∈ b.discarded layout, w.files.place directory <+: place
    · refine iff_of_false ?_ (not_not.mpr ⟨⟨files, stages⟩, covered⟩)
      obtain ⟨directory, member, covers⟩ := covered
      have rooted := spared.rooted
        (rooted ((nested.root_isPrefix w.files member).trans covers))
      rw [← places directory member] at covers
      have found := find_discarded nested isScript rooted makes second member covers
      simp [node?_tidied_of_isPrefix nested known member covers found]
    · refine iff_of_true ?_ fun lost => covered lost.2
      rw [node?_tidied nested known named ?_, spared.same, there]
      rintro ⟨directory, member, covers⟩
      exact covered ⟨directory, member, places directory member ▸ covers⟩
  · have spared : cleared.Spares place ((b.stage layout program).on programs w).2.files :=
      (tolerates_spares spare isScript nested.output (nested.stays (nested.place_clear clears))
        occupied _).stage clears (.refl _ _)
    rw [done] at spared ⊢
    exact iff_of_true (spared.same.trans there) fun lost => unstaged lost.1

/-- What becomes of the place of a script once a program was made of it. -/
private theorem node?_buildInto (nested : layout.Nested base)
    (known : layout.temporary = !b.config.keepsOutput)
    (spare : programs.Spare layout w.files place) (isScript : place.IsScript)
    (named : place.Named) {content : Content} {executable : Bool}
    (file : w.files.node? place = some (.file content executable))
    (rooted : w.files.Rooted place) (apart : w.files.place layout.root ≠ place)
    {text : Text} (read : w.files.readText script = .ok text)
    (made : Program.ofScript text (script.fileName?.getD []) b.catalog = .ok program) :
    ((b.buildInto script layout).on programs w).2.files.node? place =
        some (.file content executable) ↔
      ¬(w.files.has layout.root = true ∧ w.files.place layout.root <+: place ∨
        (∃ staged, b.Stages layout program w.files staged) ∧
          ∃ directory ∈ b.discarded layout, w.files.place directory <+: place) := by
  by_cases first : w.files.has layout.root = true ∧ w.files.place layout.root <+: place
  · obtain ⟨cleared, clears, gone⟩ :=
      exists_clear_of_isPrefix nested rooted apart first.1 first.2
    exact iff_of_false
      (vacant_buildInto nested spare isScript named ⟨text, read, made⟩ clears gone _ _)
      (not_not.mpr (.inl first))
  · simp only [first, false_or]
    cases clears : layout.clear w.files with
    | error error =>
      have same : ((b.buildInto script layout).on programs w).2.files = w.files := by
        rcases buildInto_cases programs layout ⟨text, read, made⟩ with
          ⟨-, same⟩ | ⟨cleared, -, clears', -⟩
        · exact same
        · cases clears.symm.trans clears'
      rw [same]
      refine iff_of_true file ?_
      rintro ⟨⟨staged, ready, ⟨cleared, cleared_eq, -⟩, -⟩, -⟩
      cases clears.symm.trans cleared_eq
    | ok cleared =>
      have same := node?_clear nested named clears first
      refine node?_buildInto_of_clear nested known spare isScript named read made clears
        (same.trans file) fun covers => ?_
      -- A directory that covers the script and is not found was not cleared.
      have absent : w.files.has layout.root ≠ true := fun there => first ⟨there, covers⟩
      rw [Layout.clear, if_neg absent] at clears
      cases clears
      exact rooted

private theorem loses_iff {text : Text} (read : files.readText script = .ok text)
    (made : Program.ofScript text (script.fileName?.getD []) b.catalog = .ok program) :
    b.Loses script layout files place ↔
      files.has layout.root = true ∧ files.place layout.root <+: place ∨
        (∃ staged, b.Stages layout program files staged) ∧
          ∃ directory ∈ b.discarded layout, files.place directory <+: place := by
  constructor
  · rintro ⟨other, accepts, lost⟩
    obtain rfl := accepts.unique ⟨text, read, made⟩
    exact lost
  · exact fun lost => ⟨program, ⟨text, read, made⟩, lost⟩

/-- The layout of a script is nested in the directory that the build goes to. -/
theorem nested_layoutFor {className : Text} (accepted : script.scriptClass = .ok className) :
    (b.layoutFor script className).Nested (Layout.baseFor script b.config.outDir) := by
  obtain ⟨-, first, inPart⟩ := Path.exists_of_scriptClass accepted
  exact Layout.nested_of first inPart _ _

/-- The build directory and the script have different names. -/
theorem exists_place_layoutFor (tree : FileTree) {className : Text}
    (accepted : script.scriptClass = .ok className) :
    ∃ name, name ≠ className ++ Path.scriptEnding ∧
      tree.place (b.layoutFor script className).root =
        tree.place (Layout.baseFor script b.config.outDir) ++ [name] := by
  obtain ⟨-, first, inPart⟩ := Path.exists_of_scriptClass accepted
  obtain ⟨visible, hidden⟩ := Path.isName_className first
  obtain ⟨c, first, noDot⟩ := first
  obtain ⟨rest, rfl⟩ := List.head?_eq_some_iff.mp first
  cases keeps : b.config.keepsOutput with
  | true =>
    refine ⟨c :: rest, by simp [Path.scriptEnding], ?_⟩
    rw [layoutFor, Layout.of, if_pos keeps, tree.place_child inPart visible]
  | false =>
    refine ⟨'.' :: c :: rest, fun same => noDot (List.cons.inj same).1.symm, ?_⟩
    rw [layoutFor, Layout.of, if_neg (by simp [keeps]),
      tree.place_child (by simpa using inPart) hidden]

/-- **When a build destroys its script.** If the programs leave the script alone, a build leaves it
as it is exactly if it does not lose it (`Builder.Loses`), and it never loses the script if it has
no output directory of its own. -/
theorem script_survives_iff {className : Text} (accepted : script.scriptClass = .ok className)
    {content : Content} {executable : Bool}
    (found : w.files.find script = .ok (place, .file content executable))
    (spare : programs.Spare (b.layoutFor script className) w.files place) :
    (((b.build script).on programs w).2.files.node? place = some (.file content executable) ↔
      ¬b.Loses script (b.layoutFor script className) w.files place) ∧
    (b.config.outDir = none → ¬b.Loses script (b.layoutFor script className) w.files place) := by
  obtain ⟨-, file⟩ := FileTree.find_eq_ok.mp found
  obtain ⟨whole, rooted, routed, name, named, split⟩ := FileTree.exists_of_find found
  have place_eq := whole.trans (split w.files)
  obtain ⟨fileName, first, inPart⟩ := Path.exists_of_scriptClass accepted
  obtain rfl : name = className ++ Path.scriptEnding := Option.some.inj (named.symm.trans fileName)
  obtain ⟨rootName, differs, root_eq⟩ := exists_place_layoutFor (b := b) w.files accepted
  have nested := nested_layoutFor (b := b) accepted
  constructor
  · rw [on_build accepted]
    by_cases accepts : ∃ program, b.Accepts script w.files program
    · obtain ⟨program, text, read, made⟩ := accepts
      have isScript : place.IsScript := ⟨className, by rw [place_eq, List.getLast?_concat]⟩
      have apart : w.files.place (b.layoutFor script className).root ≠ place := by
        rw [root_eq, place_eq]
        exact fun same => differs (by simpa using congrArg List.getLast? same)
      rw [node?_buildInto nested rfl spare isScript routed file rooted apart read made,
        loses_iff read made]
    · obtain ⟨outcome, output, ended, -⟩ :=
        buildInto_of_not_accepts programs (b.layoutFor script className) accepts
      rw [ended]
      exact iff_of_true file fun ⟨program, accepted, _⟩ => accepts ⟨program, accepted⟩
  · rintro beside ⟨program, -, lost⟩
    have covers : w.files.place (b.layoutFor script className).root <+: place := by
      rcases lost with ⟨-, covers⟩ | ⟨-, directory, member, covers⟩
      · exact covers
      · exact (nested.root_isPrefix w.files member).trans covers
    rw [root_eq, place_eq, beside, Path.place_baseFor, List.prefix_append_right_inj] at covers
    exact differs (by simpa using covers)

/-- Sources are kept beside a script of which the directory has the name of its class. -/
theorem script_survives_beside :
    let w := Workspace.ofFiles
      ⟨[(["home", "Demo"], .directory),
        (["home", "Demo", "Demo.auto"], .file (.text "x = 1;\n") false)], ["home"]⟩
    let b : Builder := ⟨{ Config.default with keepSources := true }, .empty⟩
    ((b.build "Demo/Demo.auto").on .plain w).2.files.node? ["home", "Demo", "Demo.auto"] =
      some (.file (.text "x = 1;\n") false) :=
  have survives := script_survives_iff (b := ⟨{ Config.default with keepSources := true }, .empty⟩)
    (w := .ofFiles
      ⟨[(["home", "Demo"], .directory),
        (["home", "Demo", "Demo.auto"], .file (.text "x = 1;\n") false)], ["home"]⟩)
    (show Path.scriptClass "Demo/Demo.auto" = .ok "Demo" by decide +kernel) (by decide +kernel)
    (Programs.framed_plain.spare (by decide +kernel) (by decide +kernel))
  survives.1.mpr (survives.2 rfl)

/-- The same script is lost if the build goes to the working directory, where the directory of the
script is taken for the output of an earlier build. -/
theorem script_lost_in_own_directory :
    let w := Workspace.ofFiles
      ⟨[(["home", "Demo"], .directory),
        (["home", "Demo", "Demo.auto"], .file (.text "x = 1;\n") false)], ["home"]⟩
    let b : Builder := ⟨{ Config.default with keepSources := true, outDir := some "." }, .empty⟩
    let built := (b.build "Demo/Demo.auto").on .plain w
    built.1.toOption = some (.built "./Demo.jar") ∧
      built.2.files.node? ["home", "Demo", "Demo.auto"] = none := by
  decide +kernel

/-- It is lost too if the output directory is named from the root. -/
example :
    let w := Workspace.ofFiles
      ⟨[(["home", "Demo"], .directory),
        (["home", "Demo", "Demo.auto"], .file (.text "x = 1;\n") false)], ["home"]⟩
    let b : Builder :=
      ⟨{ Config.default with keepSources := true, outDir := some "/home" }, .empty⟩
    ((b.build "Demo/Demo.auto").on .plain w).2.files.node? ["home", "Demo", "Demo.auto"] =
      none := by
  decide +kernel

end Builder

end ScriptLoom
