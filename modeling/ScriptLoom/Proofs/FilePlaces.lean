import Mathlib.Data.List.Infix
import ScriptLoom.FileTree
import ScriptLoom.Layout
import ScriptLoom.Proofs.Lists

/-! # The places of paths

A path that leads somewhere leads to the place that its parts spell from the root or from the
working directory (`FileTree.place`); the nodes decide only whether the way is open. So the
directories on the way to a place are known from the place (`FileTree.Rooted`), a way stays open
while directories stay, and a change that writes only inside some places moves nothing
(`FileTree.Writes`). A removal moves only what lies in the removed directory, and that loses its
name (`FileTree.place_erase`).
-/

namespace ScriptLoom

namespace Path

/-- Parts hold no slash. -/
theorem not_mem_of_mem_parts {path part : Text} (member : part ∈ parts path) : '/' ∉ part :=
  not_mem_of_mem_splitOn member

/-- A text without a slash is its only part. -/
theorem parts_of_not_mem {part : Text} (inPart : '/' ∉ part) : parts part = [part] :=
  List.splitOn_eq_singleton inPart

/-- A slash divides the parts before it from those behind it. -/
theorem parts_append_slash (base path : Text) :
    parts (base ++ '/' :: path) = parts base ++ parts path :=
  List.splitOn_append_cons_self _ _

/-- What is appended to a path without a slash belongs to its last part. -/
theorem exists_parts_append {ending : Text} (inPart : '/' ∉ ending) (path : Text) :
    ∃ front last, parts path = front ++ [last] ∧
      parts (path ++ ending) = front ++ [last ++ ending] := by
  induction path with
  | nil => exact ⟨[], [], by simp [parts], parts_of_not_mem inPart⟩
  | cons c path ih =>
    obtain ⟨front, last, old, new⟩ := ih
    rw [parts] at old new
    rw [List.cons_append]
    simp only [parts, List.splitOn_cons_eq_if_modifyHead, old, new]
    split
    · exact ⟨[] :: front, last, rfl, rfl⟩
    · cases front with
      | nil => exact ⟨[], c :: last, rfl, rfl⟩
      | cons first front => exact ⟨(c :: first) :: front, last, rfl, rfl⟩

/-- A path without a slash does not start at the root. -/
theorem isAbsolute_of_not_mem {path : Text} (inPart : '/' ∉ path) :
    Path.isAbsolute path = false := by
  cases path with
  | nil => rfl
  | cons c path =>
    have other : c ≠ '/' := fun same => inPart (same ▸ List.mem_cons_self)
    simpa [isAbsolute] using other

/-- A path below another one is that one, a slash if it needs one, and what is below. -/
theorem exists_child_eq (base : Path) :
    ∃ slash : Text, (slash = [] ∨ slash = ['/']) ∧
      ∀ path, Path.isAbsolute path = false → base.child path = base ++ (slash ++ path) := by
  by_cases ends : (base == [] || Text.endsWith base ['/']) = true
  · refine ⟨[], .inl rfl, fun path relative => ?_⟩
    rw [child, relative, if_neg (by simp), if_pos ends, List.nil_append]
  · refine ⟨['/'], .inr rfl, fun path relative => ?_⟩
    rw [child, relative, if_neg (by simp), if_neg ends, List.singleton_append]

/-- The parts of a path below another one: those of the other one, but for an empty one at its
end, and the part below. -/
theorem exists_parts_child {name : Text} (inPart : '/' ∉ name) (base : Path) :
    ∃ front, parts (base.child name) = front ++ [name] ∧
      (base.parts = front ∨ base.parts = front ++ [[]]) := by
  rw [child, isAbsolute_of_not_mem inPart]
  simp only [Bool.false_eq_true, if_false]
  split
  · next open_ =>
    rcases Bool.or_eq_true_iff.mp open_ with empty | slash
    · obtain rfl : base = [] := by simpa using empty
      exact ⟨[], parts_of_not_mem inPart, .inr (by simp [parts])⟩
    · obtain ⟨front, rfl⟩ : ['/'] <:+ base := by simpa [Text.endsWith] using slash
      refine ⟨parts front, ?_, .inr (parts_append_slash front [])⟩
      rw [List.append_assoc, List.singleton_append, parts_append_slash, parts_of_not_mem inPart]
  · exact ⟨base.parts, by rw [parts_append_slash, parts_of_not_mem inPart], .inl rfl⟩

/-- A path below another one starts at the root if that one does. -/
theorem isAbsolute_child {name : Text} (relative : Path.isAbsolute name = false) (base : Path) :
    (base.child name).isAbsolute = base.isAbsolute := by
  rw [child, relative]
  cases base with
  | nil => simpa [isAbsolute] using relative
  | cons c base => simp only [Bool.false_eq_true, if_false]; split <;> rfl

private theorem isVoid_iff {part : Text} : isVoid part = true ↔ part = [] ∨ part = ['.'] := by
  simp [isVoid]

end Path

/-- Whether a part of a path names something. -/
def Path.IsName (part : Text) : Prop :=
  Path.isVoid part = false ∧ part ≠ Path.up

/-- Long parts are names. -/
theorem Path.isName_of_length {part : Text} (long : 2 < part.length) : Path.IsName part := by
  refine ⟨?_, ?_⟩
  · rw [← Bool.not_eq_true, Path.isVoid_iff]
    rintro (short | short) <;> rw [short] at long <;> simp at long
  · intro short
    rw [short] at long
    simp [Path.up] at long

/-- Names are not empty. -/
theorem Path.IsName.ne_nil {part : Text} (name : Path.IsName part) : part ≠ [] := by
  rintro rfl
  exact absurd name.1 (by decide)

namespace Route

/-- The place that parts of a path spell from a place on. -/
def walk (at_ : Route) : List Text → Route
  | [] => at_
  | part :: rest =>
    if Path.isVoid part then walk at_ rest
    else if part = Path.up then walk at_.dropLast rest
    else walk (at_ ++ [part]) rest

/-- A place that is in no removed directory. -/
def Named (route : Route) : Prop :=
  [] ∉ route

private theorem isLost_eq_false_iff {route : Route} : route.isLost = false ↔ route.Named := by
  simp [isLost, Named]

/-- A name in a directory has a route of names if the directory does. -/
theorem named_concat {route : Route} {name : Text} (isName : Path.IsName name) :
    Named (route ++ [name]) ↔ route.Named := by
  simp [Named, isName.ne_nil]

/-- A route of names goes on with names. -/
theorem named_append {route rest : Route} : Named (route ++ rest) ↔ route.Named ∧ rest.Named := by
  simp [Named]

/-- Parts are taken one after the other. -/
theorem walk_append (at_ : Route) (parts rest : List Text) :
    walk at_ (parts ++ rest) = walk (walk at_ parts) rest := by
  induction parts generalizing at_ with
  | nil => rfl
  | cons part parts ih =>
    simp only [List.cons_append, walk]
    split
    · exact ih at_
    · split <;> exact ih _

/-- A name at the end leads one step down. -/
theorem walk_concat_name {part : Text} (name : Path.IsName part) (at_ : Route)
    (parts : List Text) : walk at_ (parts ++ [part]) = walk at_ parts ++ [part] := by
  rw [walk_append, walk, if_neg (by simp [name.1]), if_neg name.2, walk]

/-- A void part at the end leads nowhere else. -/
theorem walk_concat_void {part : Text} (void : Path.isVoid part = true) (at_ : Route)
    (parts : List Text) : walk at_ (parts ++ [part]) = walk at_ parts := by
  rw [walk_append, walk, if_pos void, walk]

/-! ### Removed directories -/

private theorem detach_of_not_isPrefix {removed route : Route} (apart : ¬removed <+: route) :
    detach removed route = route := by
  rw [detach, if_neg (by simpa using apart)]

private theorem detach_append (removed rest : Route) :
    detach removed (removed ++ rest) = removed.dropLast ++ [] :: rest := by
  rw [detach, if_pos (by simp), List.drop_left]

private theorem not_named_detach {removed route : Route} (start : removed <+: route) :
    ¬(detach removed route).Named := by
  obtain ⟨rest, rfl⟩ := start
  rw [detach_append]
  simp [Named]

/-- From a place that was detached, parts spell the place that they spelled before, or that place
detached. -/
private theorem walk_detach (removed at_ : Route) (parts : List Text) :
    walk (detach removed at_) parts = walk at_ parts ∨
      walk (detach removed at_) parts = detach removed (walk at_ parts) := by
  induction parts generalizing at_ with
  | nil => exact .inr rfl
  | cons part parts ih =>
    by_cases inside : removed <+: at_
    swap
    · exact .inl (by rw [detach_of_not_isPrefix inside])
    obtain ⟨rest, rfl⟩ := inside
    rw [walk, walk]
    split
    · exact ih _
    · split
      · rw [detach_append]
        rcases List.eq_nil_or_concat rest with rfl | ⟨rest, last, rfl⟩
        · -- The step leads out of the removed directory.
          exact .inl (by simp)
        · have step := ih (removed ++ rest)
          rw [detach_append] at step
          have shorter : ∀ front : Route, (front ++ (rest ++ [last])).dropLast = front ++ rest := by
            intro front
            rw [← List.append_assoc, List.dropLast_concat]
          rw [List.concat_eq_append, shorter, List.append_cons, shorter, ← List.append_cons]
          exact step
      · have step := ih (removed ++ (rest ++ [part]))
        rw [detach_append] at step
        simpa [detach_append] using step

/-- The places of names on the way to a place that was detached are those above the removed
directory. -/
private theorem isPrefix_detach_iff {removed place : Route} (at_ : Route) (below : removed ≠ [])
    (named : place.Named) :
    place <+: detach removed at_ ↔ place <+: at_ ∧ ¬removed <+: place := by
  by_cases inside : removed <+: at_
  swap
  · rw [detach_of_not_isPrefix inside]
    exact ⟨fun start => ⟨start, fun covers => inside (covers.trans start)⟩, And.left⟩
  obtain ⟨rest, rfl⟩ := inside
  rw [detach_append]
  obtain ⟨front, last, rfl⟩ := (List.eq_nil_or_concat removed).resolve_left below
  rw [List.concat_eq_append, List.dropLast_concat]
  constructor
  · intro start
    have above : place <+: front := by
      rcases List.prefix_or_prefix_of_prefix start (List.prefix_append front _) with
        above | ⟨more, rfl⟩
      · exact above
      · cases more with
        | nil => exact (List.append_nil front).symm ▸ List.prefix_rfl
        | cons name more =>
          obtain ⟨rfl, -⟩ :=
            List.cons_prefix_cons.mp ((List.prefix_append_right_inj front).mp start)
          exact absurd (by simp) named
    refine ⟨above.trans (List.append_assoc front _ _ ▸ List.prefix_append _ _), fun covers => ?_⟩
    have short := covers.length_le.trans above.length_le
    rw [List.length_append, List.length_singleton] at short
    omega
  · rintro ⟨start, outside⟩
    have above := (List.prefix_or_prefix_of_prefix start (List.prefix_append _ _)).resolve_right
      outside
    rcases List.prefix_concat_iff.mp above with same | above
    · exact absurd (same ▸ List.prefix_rfl) outside
    · exact above.trans (List.prefix_append _ _)

end Route

namespace FileTree

/-- The place that a path spells. -/
def place (tree : FileTree) (path : Path) : Route :=
  (tree.start path).walk path.parts

/-- Places depend on the working directory only. -/
theorem place_eq_of_here {tree other : FileTree} (same : tree.here = other.here) (path : Path) :
    tree.place path = other.place path := by
  rw [place, place, start, start, same]

private theorem start_child (tree : FileTree) {base : Path} {name : Text} (inPart : '/' ∉ name) :
    tree.start (base.child name) = tree.start base := by
  rw [start, start, Path.isAbsolute_child (Path.isAbsolute_of_not_mem inPart)]

/-- A name below a path spells the place below that of the path. -/
theorem place_child (tree : FileTree) {name : Text} (inPart : '/' ∉ name)
    (isName : Path.IsName name) (base : Path) :
    tree.place (base.child name) = tree.place base ++ [name] := by
  obtain ⟨front, parts, same | same⟩ := Path.exists_parts_child inPart base
  · rw [place, start_child tree inPart, parts, Route.walk_concat_name isName, place, same]
  · rw [place, start_child tree inPart, parts, Route.walk_concat_name isName, place, same,
      Route.walk_concat_void (by decide)]

/-! ### The way to a place -/

/-- A place to which directories lead. -/
def Rooted (tree : FileTree) (route : Route) : Prop :=
  ∀ other, other <+: route → other ≠ route → tree.node? other = some .directory

variable {tree : FileTree} {at_ route : Route}

/-- The directories on the way to the working directory are there. -/
theorem node?_of_isPrefix_here (onWay : route <+: tree.here) :
    tree.node? route = some .directory := by
  rw [node?, if_pos (by simpa using onWay)]

/-- What is no directory is not on the way to the working directory. -/
theorem not_isPrefix_here {found : Option Node} (there : tree.node? route = found)
    (other : found ≠ some .directory) : ¬route <+: tree.here :=
  fun onWay => other (there ▸ node?_of_isPrefix_here onWay)

/-- Directories lead to where a path starts. -/
theorem rooted_start (tree : FileTree) (path : Path) : tree.Rooted (tree.start path) := by
  intro other start differ
  refine node?_of_isPrefix_here (start.trans ?_)
  rw [FileTree.start]
  split
  · exact List.nil_prefix
  · exact List.prefix_rfl

private theorem Rooted.concat (rooted : tree.Rooted at_)
    (directory : tree.node? at_ = some .directory) (part : Text) : tree.Rooted (at_ ++ [part]) := by
  intro other start differ
  rcases List.prefix_concat_iff.mp start with whole | shorter
  · exact absurd whole differ
  · by_cases same : other = at_
    · rw [same]
      exact directory
    · exact rooted other shorter same

private theorem Rooted.dropLast (rooted : tree.Rooted at_) : tree.Rooted at_.dropLast := by
  intro other start differ
  refine rooted other (start.trans (List.dropLast_prefix at_)) ?_
  rintro rfl
  exact differ (start.eq_of_length_le (List.dropLast_prefix _).length_le)

/-- Above a place to which directories lead is a directory. -/
theorem Rooted.node?_dropLast (rooted : tree.Rooted at_) :
    tree.node? at_.dropLast = some .directory := by
  by_cases top : at_ = []
  · rw [top]
    exact node?_of_isPrefix_here List.nil_prefix
  · refine rooted _ (List.dropLast_prefix at_) fun same => ?_
    have shorter := congrArg List.length same
    have positive := List.length_pos_iff.mpr top
    rw [List.length_dropLast] at shorter
    omega

/-- One step along a path: the place where it is taken is a directory, and a name is found only in
a directory that was not removed. -/
theorem follow_cons_eq_ok {part : Text} {rest : List Text} :
    tree.follow at_ (part :: rest) = .ok route ↔
      tree.node? at_ = some .directory ∧
        (Path.isVoid part = true ∧ tree.follow at_ rest = .ok route ∨
          part = Path.up ∧ tree.follow at_.dropLast rest = .ok route ∨
          Path.IsName part ∧ at_.Named ∧ part.size ≤ nameLimit ∧
            tree.follow (at_ ++ [part]) rest = .ok route) := by
  rw [follow, ← Route.isLost_eq_false_iff]
  cases found : tree.node? at_ with
  | none => simp
  | some node =>
    cases node with
    | file content executable => simp
    | directory =>
      simp only [true_and]
      by_cases void : Path.isVoid part = true
      · have noUp : part ≠ Path.up := by
          rintro rfl
          cases void
        simp [void, noUp, Path.IsName]
      · by_cases isUp : part = Path.up
        · have noVoid : Path.isVoid Path.up = false := rfl
          simp [isUp, noVoid, Path.IsName]
        · cases lost : at_.isLost with
          | true => simp [void, isUp]
          | false =>
            by_cases long : nameLimit < part.size
            · simp [void, isUp, long, Path.IsName, Nat.not_le.mpr long]
            · simp [void, isUp, long, Path.IsName, Nat.not_lt.mp long]

/-- A path that leads somewhere leads to the place that its parts spell, through directories. -/
theorem eq_walk_of_follow {parts : List Text} (found : tree.follow at_ parts = .ok route)
    (rooted : tree.Rooted at_) : route = at_.walk parts ∧ tree.Rooted route := by
  induction parts generalizing at_ with
  | nil =>
    cases found
    exact ⟨rfl, rooted⟩
  | cons part rest ih =>
    obtain ⟨directory, ⟨void, later⟩ | ⟨isUp, later⟩ | ⟨name, -, -, later⟩⟩ :=
      follow_cons_eq_ok.mp found
    · rw [Route.walk, if_pos void]
      exact ih later rooted
    · rw [Route.walk, if_neg (by rw [isUp]; decide), if_pos isUp]
      exact ih later rooted.dropLast
    · rw [Route.walk, if_neg (by simp [name.1]), if_neg name.2]
      exact ih later (rooted.concat directory part)

/-- A way is followed one piece after the other. -/
theorem follow_append_eq_ok {parts rest : List Text} :
    tree.follow at_ (parts ++ rest) = .ok route ↔
      ∃ middle, tree.follow at_ parts = .ok middle ∧ tree.follow middle rest = .ok route := by
  induction parts generalizing at_ with
  | nil => simp [follow]
  | cons part parts ih =>
    simp only [List.cons_append, follow_cons_eq_ok, ih]
    grind

/-- A path that ends in a name leads through a directory to a name in it. -/
private theorem follow_concat_eq_ok {parts : List Text} {part : Text} (name : Path.IsName part) :
    tree.follow at_ (parts ++ [part]) = .ok route ↔
      ∃ middle, tree.follow at_ parts = .ok middle ∧ tree.node? middle = some .directory ∧
        middle.Named ∧ part.size ≤ nameLimit ∧ route = middle ++ [part] := by
  have noVoid : ¬Path.isVoid part = true := by simp [name.1]
  have last : ∀ middle, tree.follow middle [part] = .ok route ↔
      tree.node? middle = some .directory ∧ middle.Named ∧ part.size ≤ nameLimit ∧
        route = middle ++ [part] := by
    intro middle
    rw [follow_cons_eq_ok]
    simp [noVoid, name.2, name, follow, eq_comm]
  simp only [follow_append_eq_ok, last]

/-- A path leads somewhere if it is well-formed and its way is open. -/
theorem resolve_eq_ok {path : Path} :
    tree.resolve path = .ok route ↔
      '\x00' ∉ path ∧ Text.size path ≤ pathLimit ∧ path ≠ [] ∧
        tree.follow (tree.start path) path.parts = .ok route := by
  rw [resolve]
  by_cases nul : '\x00' ∈ path
  · simp [nul]
  by_cases long : pathLimit < Text.size path
  · simp [nul, long, Nat.not_le.mpr long]
  by_cases empty : path = []
  · simp [empty, pathLimit]
  simp [nul, long, Nat.not_lt.mp long, empty]

/-- A path leads to its place, through directories. -/
theorem eq_place_of_resolve {path : Path} (found : tree.resolve path = .ok route) :
    route = tree.place path ∧ tree.Rooted route :=
  eq_walk_of_follow (resolve_eq_ok.mp found).2.2.2 (rooted_start tree path)

/-- A path in a directory leads there only if that of the directory leads to a directory that was
not removed. -/
private theorem follow_of_resolve_child {base : Path} {name : Text} (inPart : '/' ∉ name)
    (isName : Path.IsName name) (found : tree.resolve (base.child name) = .ok route) :
    tree.follow (tree.start base) base.parts = .ok (tree.place base) ∧
      tree.node? (tree.place base) = some .directory ∧ (tree.place base).Named := by
  obtain ⟨front, parts, same⟩ := Path.exists_parts_child inPart base
  obtain ⟨-, -, -, followed⟩ := resolve_eq_ok.mp found
  rw [start_child tree inPart, parts] at followed
  obtain ⟨middle, before, directory, named, -, -⟩ := (follow_concat_eq_ok isName).mp followed
  have way : tree.follow (tree.start base) base.parts = .ok middle := by
    rcases same with same | same
    · rwa [same]
    · rw [same, follow_append_eq_ok]
      exact ⟨middle, before, follow_cons_eq_ok.mpr ⟨directory, .inl ⟨by decide, rfl⟩⟩⟩
  have walked : middle = tree.place base := (eq_walk_of_follow way (rooted_start tree base)).1
  rw [← walked]
  exact ⟨way, directory, named⟩

/-- What is found in a directory is in one that is there and was not removed. -/
theorem node?_of_resolve_child {base : Path} {name : Text} (inPart : '/' ∉ name)
    (isName : Path.IsName name) (found : tree.resolve (base.child name) = .ok route) :
    tree.node? (tree.place base) = some .directory ∧ (tree.place base).Named :=
  (follow_of_resolve_child inPart isName found).2

/-- If a path in a directory leads there, so does the path of the directory. -/
theorem resolve_of_resolve_child {base : Path} {name : Text} (inPart : '/' ∉ name)
    (isName : Path.IsName name) (nonempty : base ≠ [])
    (found : tree.resolve (base.child name) = .ok route) :
    tree.resolve base = .ok (tree.place base) := by
  obtain ⟨followed, -, -⟩ := follow_of_resolve_child inPart isName found
  obtain ⟨noNul, short, -, -⟩ := resolve_eq_ok.mp found
  obtain ⟨slash, -, whole⟩ := Path.exists_child_eq base
  rw [whole name (Path.isAbsolute_of_not_mem inPart)] at noNul short
  refine resolve_eq_ok.mpr ⟨fun nul => noNul (List.mem_append_left _ nul), ?_, nonempty, followed⟩
  rw [Text.size_append] at short
  omega

/-- If a path in a directory leads there, so does that of a shorter name. -/
theorem resolve_sibling {base : Path} {name other : Text} (inPart : '/' ∉ name)
    (isName : Path.IsName name) (inPart' : '/' ∉ other) (isName' : Path.IsName other)
    (noNul' : '\x00' ∉ other) (shorter : other.size ≤ name.size) (limit : other.size ≤ nameLimit)
    (found : tree.resolve (base.child name) = .ok route) :
    tree.resolve (base.child other) = .ok (tree.place base ++ [other]) := by
  obtain ⟨followed, directory, named⟩ := follow_of_resolve_child inPart isName found
  obtain ⟨noNul, short, -, -⟩ := resolve_eq_ok.mp found
  obtain ⟨slash, -, whole⟩ := Path.exists_child_eq base
  rw [whole name (Path.isAbsolute_of_not_mem inPart)] at noNul short
  refine resolve_eq_ok.mpr ⟨?_, ?_, ?_, ?_⟩
  · rw [whole other (Path.isAbsolute_of_not_mem inPart')]
    simp only [List.mem_append, not_or] at noNul ⊢
    exact ⟨noNul.1, noNul.2.1, noNul'⟩
  · rw [whole other (Path.isAbsolute_of_not_mem inPart')]
    simp only [Text.size_append] at short ⊢
    omega
  · rw [whole other (Path.isAbsolute_of_not_mem inPart')]
    simp [isName'.ne_nil]
  · obtain ⟨front, parts, same⟩ := Path.exists_parts_child inPart' base
    rw [start_child tree inPart', parts, follow_concat_eq_ok isName']
    refine ⟨tree.place base, ?_, directory, named, limit, rfl⟩
    rcases same with same | same
    · rwa [same] at followed
    · rw [same] at followed
      obtain ⟨middle, before, last⟩ := follow_append_eq_ok.mp followed
      obtain ⟨-, ⟨-, ended⟩ | ⟨isUp, -⟩ | ⟨isName, -⟩⟩ := follow_cons_eq_ok.mp last
      · cases ended
        exact before
      · cases isUp
      · exact absurd isName.1 (by decide)

/-- A path with a long ending leads to a name with that ending. -/
theorem exists_getLast?_of_resolve {path ending : Text} (inPart : '/' ∉ ending)
    (long : 2 < ending.length) (found : tree.resolve (path ++ ending) = .ok route) :
    ∃ last, route.getLast? = some (last ++ ending) := by
  obtain ⟨front, last, -, parts⟩ := Path.exists_parts_append inPart path
  have isName : Path.IsName (last ++ ending) :=
    Path.isName_of_length (by rw [List.length_append]; omega)
  obtain ⟨-, -, -, followed⟩ := resolve_eq_ok.mp found
  rw [parts] at followed
  obtain ⟨middle, -, -, -, -, rfl⟩ := (follow_concat_eq_ok isName).mp followed
  exact ⟨last, by simp⟩

/-- What a path names stands at the place that it leads to. -/
theorem find_eq_ok {path : Path} {node : Node} :
    tree.find path = .ok (route, node) ↔
      tree.resolve path = .ok route ∧ tree.node? route = some node := by
  rw [find]
  cases tree.resolve path with
  | error error => simp [bind, Except.bind]
  | ok place =>
    cases found : tree.node? place with
    | none =>
      simp only [bind, Except.bind, found, reduceCtorEq, Except.ok.injEq, false_iff, not_and]
      rintro rfl
      simp [found]
    | some other =>
      simp only [bind, Except.bind, found, pure, Except.pure, Except.ok.injEq, Prod.mk.injEq]
      constructor
      · rintro ⟨rfl, rfl⟩
        exact ⟨rfl, found⟩
      · rintro ⟨rfl, same⟩
        exact ⟨rfl, Option.some.inj (found.symm.trans same)⟩

/-! ### Changes that write -/

/-- A change that writes only inside some places: what is outside stays as it is, and no directory
is removed. -/
structure Writes (inside : Route → Prop) (tree after : FileTree) : Prop where
  outside : ∀ route, ¬inside route → after.node? route = tree.node? route
  directories : ∀ route, tree.node? route = some .directory → after.node? route = some .directory
  here : after.here = tree.here

/-- A change that writes elsewhere than at a place. -/
abbrev Spares (place : Route) : FileTree → FileTree → Prop :=
  Writes (· ≠ place)

variable {inside : Route → Prop} {place : Route} {after last : FileTree}

namespace Writes

/-- To write nothing is to write inside anything. -/
theorem refl (inside : Route → Prop) (tree : FileTree) : Writes inside tree tree :=
  ⟨fun _ _ => rfl, fun _ => id, rfl⟩

/-- Two changes that write inside the same places do so together. -/
theorem trans (first : Writes inside tree after) (second : Writes inside after last) :
    Writes inside tree last where
  outside route off := (second.outside route off).trans (first.outside route off)
  directories route found := second.directories route (first.directories route found)
  here := second.here.trans first.here

/-- A change that writes inside some places writes inside more places. -/
theorem mono {inside' : Route → Prop} (writes : Writes inside tree after)
    (wider : ∀ route, inside route → inside' route) : Writes inside' tree after :=
  ⟨fun route off => writes.outside route (mt (wider route) off), writes.directories, writes.here⟩

/-- Paths keep their places. -/
theorem place_eq (writes : Writes inside tree after) (path : Path) :
    after.place path = tree.place path :=
  place_eq_of_here writes.here path

/-- Directories still lead to the places that they led to. -/
theorem rooted (writes : Writes inside tree after) (rooted : tree.Rooted route) :
    after.Rooted route :=
  fun other start proper => writes.directories other (rooted other start proper)

/-- A node is put where there is no directory. -/
theorem of_insert {node : Node} (member : inside route)
    (noDirectory : tree.node? route ≠ some .directory) :
    Writes inside tree (tree.insert route node) where
  outside other off := node?_insert_of_ne tree node fun same => off (same ▸ member)
  directories other found := by
    have differ : other ≠ route := by
      rintro rfl
      exact noDirectory found
    rw [node?_insert_of_ne tree node differ, found]
  here := rfl

/-- A way stays open while directories stay. -/
theorem follow_eq_ok (writes : Writes inside tree after) {parts : List Text}
    (found : tree.follow at_ parts = .ok route) : after.follow at_ parts = .ok route := by
  induction parts generalizing at_ with
  | nil => exact found
  | cons part rest ih =>
    obtain ⟨directory, step⟩ := follow_cons_eq_ok.mp found
    refine follow_cons_eq_ok.mpr ⟨writes.directories at_ directory, ?_⟩
    rcases step with ⟨void, later⟩ | ⟨isUp, later⟩ | ⟨name, named, short, later⟩
    · exact .inl ⟨void, ih later⟩
    · exact .inr (.inl ⟨isUp, ih later⟩)
    · exact .inr (.inr ⟨name, named, short, ih later⟩)

/-- Paths lead where they led. -/
theorem resolve_eq_ok (writes : Writes inside tree after) {path : Path}
    (found : tree.resolve path = .ok route) : after.resolve path = .ok route := by
  obtain ⟨noNul, short, nonempty, way⟩ := FileTree.resolve_eq_ok.mp found
  refine FileTree.resolve_eq_ok.mpr ⟨noNul, short, nonempty, ?_⟩
  rw [start, writes.here]
  exact writes.follow_eq_ok way

end Writes

/-- What is spared stays as it is. -/
theorem Spares.same (spares : Spares place tree after) : after.node? place = tree.node? place :=
  spares.outside place (not_not.mpr rfl)

/-- A place where a file can be put: nothing stands there, or a file does, which stays executable or
not. -/
def Receives (tree : FileTree) (route : Route) (executable : Bool) : Prop :=
  tree.node? route = none ∧ executable = false ∨
    ∃ old, tree.node? route = some (.file old executable)

/-- Files are not put over directories. -/
theorem Receives.ne_directory {executable : Bool} (receives : tree.Receives route executable) :
    tree.node? route ≠ some .directory := by
  rcases receives with ⟨free, -⟩ | ⟨old, there⟩
  · simp [free]
  · simp [there]

/-- A file is written where its path leads. -/
theorem write_eq_ok {path : Path} {content : Content} :
    tree.write path content = .ok after ↔
      ∃ route executable, tree.resolve path = .ok route ∧ tree.Receives route executable ∧
        after = tree.insert route (.file content executable) := by
  rw [write]
  cases resolved : tree.resolve path with
  | error error => simp [bind, Except.bind]
  | ok route =>
    simp only [bind, Except.bind, Except.ok.injEq]
    constructor
    · intro written
      split at written
      · next free =>
        cases written
        exact ⟨route, false, rfl, .inl ⟨free, rfl⟩, rfl⟩
      · next old executable there =>
        cases written
        exact ⟨route, executable, rfl, .inr ⟨old, there⟩, rfl⟩
      · cases written
    · rintro ⟨_, executable, rfl, ⟨free, rfl⟩ | ⟨old, there⟩, rfl⟩
      · rw [free]
        rfl
      · rw [there]
        rfl

private theorem exists_of_markExecutable {path : Path}
    (marked : tree.markExecutable path = .ok after) :
    ∃ route, tree.resolve path = .ok route ∧
      (tree.node? route = some .directory ∧ after = tree ∨
        ∃ content executable, tree.node? route = some (.file content executable) ∧
          after = tree.insert route (.file content true)) := by
  rw [markExecutable] at marked
  rcases found : tree.find path with error | ⟨route, _ | ⟨content, executable⟩⟩ <;>
    rw [found] at marked <;> cases marked <;> obtain ⟨resolved, there⟩ := find_eq_ok.mp found
  · exact ⟨route, resolved, .inl ⟨there, rfl⟩⟩
  · exact ⟨route, resolved, .inr ⟨content, executable, there, rfl⟩⟩

/-- What was made executable is an executable file or a directory. -/
theorem node?_of_markExecutable {path : Path} (marked : tree.markExecutable path = .ok after) :
    (∃ content, after.node? (after.place path) = some (.file content true)) ∨
      after.node? (after.place path) = some .directory := by
  obtain ⟨route, resolved, ⟨there, rfl⟩ | ⟨content, executable, there, rfl⟩⟩ :=
    exists_of_markExecutable marked <;> obtain ⟨rfl, -⟩ := eq_place_of_resolve resolved
  · exact .inr there
  · exact .inl ⟨content, node?_insert_self tree _ (not_isPrefix_here there (by simp))⟩

/-- Writing a file writes at the place of its path. -/
theorem Writes.of_write {path : Path} {content : Content}
    (written : tree.write path content = .ok after)
    (member : ∀ route, tree.resolve path = .ok route → inside route) :
    Writes inside tree after := by
  obtain ⟨route, executable, resolved, receives, rfl⟩ := write_eq_ok.mp written
  exact of_insert (member route resolved) receives.ne_directory

/-- Making a file executable writes at the place of its path. -/
theorem Writes.of_markExecutable {path : Path} (marked : tree.markExecutable path = .ok after)
    (member : ∀ route, tree.resolve path = .ok route → inside route) :
    Writes inside tree after := by
  obtain ⟨route, resolved, ⟨-, rfl⟩ | ⟨content, executable, there, rfl⟩⟩ :=
    exists_of_markExecutable marked
  · exact .refl _ _
  · exact of_insert (member route resolved) (by simp [there])

/-! ### Making directories -/

private theorem makeDirectory_eq_ok {path : Path} :
    tree.makeDirectory path = .ok after ↔
      ∃ route, tree.resolve path = .ok route ∧ tree.node? route = none ∧
        after = tree.insert route .directory := by
  rw [makeDirectory]
  cases found : tree.resolve path with
  | error error => simp [bind, Except.bind]
  | ok route =>
    cases there : tree.node? route with
    | none => simp [bind, Except.bind, there, pure, Except.pure, eq_comm]
    | some node => simp [bind, Except.bind, there]

private theorem find_of_makeDirectory {path : Path} (made : tree.makeDirectory path = .ok after) :
    ∃ route, after.find path = .ok (route, .directory) := by
  obtain ⟨route, resolved, free, rfl⟩ := makeDirectory_eq_ok.mp made
  have writes : Writes (fun _ => True) tree (tree.insert route .directory) :=
    .of_insert trivial (by simp [free])
  exact ⟨route, find_eq_ok.mpr ⟨writes.resolve_eq_ok resolved,
    node?_insert_self tree _ (not_isPrefix_here free (by simp))⟩⟩

private theorem find_of_settled {path : Path} {error : SystemError}
    (ok : tree.settled path error = .ok ()) :
    ∃ route, tree.find path = .ok (route, .directory) := by
  rw [settled, isDirectory] at ok
  split at ok
  · next route found => exact ⟨route, found⟩
  · cases ok

/-- A property that is kept when a directory is put where nothing is, is kept when directories are
made. -/
theorem makeNested_induction (property : FileTree → Prop)
    (step : ∀ tree route, property tree → tree.Rooted route → tree.node? route = none →
      property (tree.insert route .directory))
    (paths : List Path) (holds : property tree) : property (makeNested paths tree).2 := by
  have made : ∀ {path : Path} {tree after : FileTree}, property tree →
      tree.makeDirectory path = .ok after → property after := by
    intro path tree after holds made
    obtain ⟨route, resolved, free, rfl⟩ := makeDirectory_eq_ok.mp made
    exact step tree route holds (eq_place_of_resolve resolved).2 free
  induction paths with
  | nil => exact holds
  | cons path above ih =>
    rw [makeNested]
    split
    · next first => exact made holds first
    · split
      · next nested => rwa [nested] at ih
      · next middle nested =>
        rw [nested] at ih
        split
        · next second => exact made ih second
        · exact ih
    · exact holds

/-- Directories are made only where nothing is. -/
theorem writes_createDirectories (path : Path) (tree : FileTree) :
    Writes (tree.node? · = none) tree (tree.createDirectories path).2 := by
  refine makeNested_induction _ (fun middle route writes _ free => ?_) _ (.refl _ _)
  by_cases old : tree.node? route = none
  · exact writes.trans (.of_insert old (by simp [free]))
  · rw [writes.outside route old] at free
    exact absurd free old

/-- Making directories spares what is there. -/
theorem spares_createDirectories (path : Path) (occupied : tree.node? place ≠ none) :
    Spares place tree (tree.createDirectories path).2 :=
  (writes_createDirectories path tree).mono fun _ free same => occupied (same ▸ free)

/-- A directory that was made is there. -/
theorem find_of_makeNested {path : Path} {above : List Path}
    (made : makeNested (path :: above) tree = (.ok (), after)) :
    ∃ route, after.find path = .ok (route, .directory) := by
  rw [makeNested] at made
  split at made
  · next first =>
    cases made
    exact find_of_makeDirectory first
  · split at made
    · cases made
    · split at made
      · next second =>
        cases made
        exact find_of_makeDirectory second
      · obtain ⟨ok, rfl⟩ := Prod.mk.inj made
        exact find_of_settled ok
  · obtain ⟨ok, rfl⟩ := Prod.mk.inj made
    exact find_of_settled ok

/-! ### Removing a directory -/

/-- A removal takes away what is in the directory. -/
theorem node?_erase_of_isPrefix (tree : FileTree) (below : route ≠ []) (named : route.Named)
    (covers : route <+: place) : (tree.erase route).node? place = none := by
  have kept := lookup_filter (fun key => !route.isPrefixOf key) place tree.entries
  rw [if_neg (by simp [covers])] at kept
  rw [node?, if_neg ?_]
  · exact kept
  · intro onWay
    have start := covers.trans (List.isPrefixOf_iff_prefix.mp onWay)
    exact ((Route.isPrefix_detach_iff _ below named).mp start).2 List.prefix_rfl

/-- A removal leaves what is not in the directory. -/
theorem node?_erase_of_not_isPrefix (tree : FileTree) (below : route ≠ []) (named : place.Named)
    (outside : ¬route <+: place) : (tree.erase route).node? place = tree.node? place := by
  have kept := lookup_filter (fun key => !route.isPrefixOf key) place tree.entries
  rw [if_pos (by simpa [← List.isPrefixOf_iff_prefix] using outside)] at kept
  rw [node?, node?]
  simp only [erase, List.isPrefixOf_iff_prefix,
    Route.isPrefix_detach_iff tree.here below named, outside, not_false_eq_true, and_true]
  rw [kept]

/-- After a removal a path spells the place that it spelled, or that place was in the removed
directory and now has no name. -/
theorem place_erase (tree : FileTree) (route : Route) (path : Path) :
    (tree.erase route).place path = tree.place path ∨
      route <+: tree.place path ∧ ¬((tree.erase route).place path).Named := by
  have moved : (tree.erase route).place path = tree.place path ∨
      (tree.erase route).place path = Route.detach route (tree.place path) := by
    rw [FileTree.place, FileTree.place, start, start]
    split
    · exact .inl rfl
    · exact Route.walk_detach _ _ _
  rcases moved with same | moved
  · exact .inl same
  · by_cases covers : route <+: tree.place path
    · exact .inr ⟨covers, moved ▸ Route.not_named_detach covers⟩
    · exact .inl (by rw [moved, Route.detach_of_not_isPrefix covers])

end FileTree

end ScriptLoom
