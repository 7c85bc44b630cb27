import ScriptLoom.Session
import ScriptLoom.Proofs.BuildCleanUp
import ScriptLoom.Proofs.ToolCalls

/-! # The artifacts of a session

A session that ends well is a run of builds, one for each script, and each of them delivers an
artifact (`Builder.Delivers`). Beside different scripts the artifacts have different places, but in
a common output directory scripts with the same file name share one. If the programs write only
where they may, an artifact that shares its place with none stays as its build left it, unless a
later build clears a directory that it lies in (`Builder.Encloses`). All places are those of the
beginning: a build moves nothing that can still be named (`FileTree.Drifts`).
-/

namespace ScriptLoom

open ScriptLoom.Action

/-- What a build delivers: the artifact of a script, and the workspace that the build leaves. -/
structure Delivery where
  script : Path
  artifact : Path
  after : Workspace

namespace Builder

/-- A run of builds that all deliver. -/
inductive Delivers (b : Builder) (programs : Programs) :
    Workspace → List Delivery → Workspace → Prop
  | done (w : Workspace) : Delivers b programs w [] w
  | build {w middle after : Workspace} {script artifact : Path} {rest : List Delivery}
      (built : (b.build script).on programs w = (.ok (.built artifact), middle))
      (later : Delivers b programs middle rest after) :
      Delivers b programs w (⟨script, artifact, middle⟩ :: rest) after

/-- The build directory of a script. -/
def rootFor (b : Builder) (script : Path) : Path :=
  (b.layoutFor script (Path.className (script.fileName?.getD []))).root

/-- The build directory of a script holds the directory that the artifact of another one goes to. -/
def Encloses (b : Builder) (files : FileTree) (script other : Path) : Prop :=
  files.place (b.rootFor script) <+: files.place (Layout.baseFor other b.config.outDir)

end Builder

/-! ### Sessions as runs -/

private theorem Session.buildAll_eq_ok {b : Builder} {programs : Programs} {scripts : List Path}
    {w after : Workspace} {u : Unit} :
    (Session.buildAll b scripts).on programs w = (.ok u, after) ↔
      ∃ deliveries, b.Delivers programs w deliveries after ∧
        deliveries.map (·.script) = scripts := by
  induction scripts generalizing w with
  | nil =>
    rw [Session.buildAll, on_pure]
    constructor
    · intro ended
      cases ended
      exact ⟨[], .done _, rfl⟩
    · rintro ⟨deliveries, delivers, none⟩
      obtain rfl := List.map_eq_nil_iff.mp none
      cases delivers
      rfl
  | cons script rest ih =>
    rw [Session.buildAll, on_bind_eq_ok]
    simp only [on_during_eq_ok]
    constructor
    · rintro ⟨outcome, middle, built, later⟩
      cases outcome with
      | rejected =>
        rw [if_pos rfl, on_throw] at later
        cases later
      | built artifact =>
        rw [if_neg (by simp), ih] at later
        obtain ⟨deliveries, delivers, rfl⟩ := later
        exact ⟨⟨script, artifact, middle⟩ :: deliveries, .build built delivers, rfl⟩
    · rintro ⟨deliveries, delivers, listed⟩
      cases delivers with
      | done => cases listed
      | @build _ middle _ own artifact others built later =>
        obtain ⟨rfl, rfl⟩ := List.cons.inj listed
        refine ⟨.built artifact, middle, built, ?_⟩
        rw [if_neg (by simp)]
        exact ih.mpr ⟨others, later, rfl⟩

private theorem Config.keeps_ofFile (programs : Programs) (property : Workspace → Prop)
    (path : Path) : Keeps programs property (Config.ofFile path) :=
  .bind (.readText _) fun _ => .during (.ofExcept _)

/-- Reading the configuration changes nothing. -/
private theorem Config.keeps_resolve (programs : Programs) (property : Workspace → Prop)
    (line : CommandLine) : Keeps programs property (Config.resolve line) := by
  rw [Config.resolve]
  split
  · exact .bind (Config.keeps_ofFile programs property _) fun _ => .ofExcept _
  · refine .bind (.isFile _) fun _ => ?_
    split
    · exact .bind (Config.keeps_ofFile programs property _) fun _ => .ofExcept _
    · exact .bind (.pure _) fun _ => .ofExcept _

/-- Reading the catalog changes nothing. -/
private theorem Config.keeps_loadCatalog (programs : Programs) (property : Workspace → Prop)
    (config : Config) : Keeps programs property config.loadCatalog := by
  rw [Config.loadCatalog]
  split
  · exact .bind (.readText _) fun _ => .during (.ofExcept _)
  · exact .bind (.readText _) fun _ => .during (.ofExcept _)
  · exact .ofExcept _

/-- A session that ends well reads its configuration and its catalog, and then all builds
deliver. -/
theorem Session.exists_of_perform {programs : Programs} {line : CommandLine}
    {w after : Workspace} {u : Unit}
    (done : (Session.perform line).on programs w = (.ok u, after)) :
    ∃ (b : Builder) (deliveries : List Delivery),
      (Config.resolve line).on programs w = (.ok b.config, w) ∧
        b.Delivers programs w deliveries after ∧ deliveries.map (·.script) = line.scripts := by
  obtain ⟨config, read, resolves, next⟩ := on_bind_eq_ok.mp done
  rw [on_during_eq_ok] at resolves
  obtain rfl : w = read := by
    have same := Config.keeps_resolve programs (w = ·) line w rfl
    rwa [resolves] at same
  obtain ⟨_, checked, checks, next⟩ := on_bind_eq_ok.mp next
  obtain ⟨-, rfl⟩ := Prod.mk.inj checks
  obtain ⟨catalog, loaded, loads, builds⟩ := on_bind_eq_ok.mp next
  rw [on_during_eq_ok] at loads
  obtain rfl : w = loaded := by
    have same := Config.keeps_loadCatalog programs (w = ·) config w rfl
    rwa [loads] at same
  obtain ⟨deliveries, delivers, listed⟩ := Session.buildAll_eq_ok.mp builds
  exact ⟨⟨config, catalog⟩, deliveries, resolves, delivers, listed⟩

/-! ### Places that stay -/

/-- A tree in which each path has the place that it had in another one, unless the place has lost
its name. -/
def FileTree.Drifts (files after : FileTree) : Prop :=
  ∀ path, after.place path = files.place path ∨ ¬(after.place path).Named

namespace FileTree

variable {files middle after : FileTree}

private theorem drifts_of_here (same : after.here = files.here) : files.Drifts after :=
  fun path => .inl (place_eq_of_here same path)

private theorem Drifts.trans (first : files.Drifts middle) (second : middle.Drifts after) :
    files.Drifts after := by
  intro path
  rcases second path with same | lost
  · rw [same]
    exact first path
  · exact .inr lost

private theorem drifts_removeDirectory {path : Path}
    (removed : files.removeDirectory path = .ok after) : files.Drifts after := by
  obtain ⟨route, -, rfl⟩ := removeDirectory_eq_ok.mp removed
  exact fun path => (files.place_erase route path).imp_right And.right

private theorem drifts_removeQuietly (files : FileTree) (path : Path) :
    files.Drifts (files.removeQuietly path) := by
  rw [removeQuietly]
  cases removed : files.removeDirectory path with
  | error error => exact drifts_of_here rfl
  | ok after => exact drifts_removeDirectory removed

end FileTree

namespace Builder

variable {b : Builder} {programs : Programs} {script artifact base : Path} {w after : Workspace}
  {layout : Layout} {program : Program}

/-- The steps of a build do not move the working directory. -/
private theorem tolerates_here (layout : Layout) (framed : programs.Framed) (start : FileTree)
    (units : List NamedSource) :
    layout.Tolerates programs units (·.here = start.here) := by
  have kept : ∀ {tree after : FileTree}, tree.here = start.here →
      tree.Writes (fun _ => True) after → after.here = start.here :=
    fun same writes => writes.here.trans same
  exact ⟨fun same _ => same,
    fun _ same written => kept same (.of_write written fun _ _ => trivial),
    fun _ same ran => (framed ran).here.trans same, fun same ran => (framed ran).here.trans same,
    fun same marked => kept same (.of_markExecutable marked fun _ _ => trivial)⟩

private theorem drifts_clear {files cleared : FileTree}
    (clears : layout.clear files = .ok cleared) : files.Drifts cleared := by
  rw [Layout.clear] at clears
  split at clears
  · exact FileTree.drifts_removeDirectory clears
  · cases clears
    exact FileTree.drifts_of_here rfl

private theorem drifts_tidied (known : layout.temporary = !b.config.keepsOutput)
    (files : FileTree) : files.Drifts (b.tidied layout files) := by
  rw [tidied]
  rcases discarded_eq known with none | ⟨directory, one⟩
  · rw [none]
    exact FileTree.drifts_of_here rfl
  · rw [one]
    exact FileTree.drifts_removeQuietly files directory

/-- A build whose programs write only where they may moves nothing that can still be named. -/
private theorem drifts_buildInto (known : layout.temporary = !b.config.keepsOutput)
    (framed : programs.Framed) (accepts : b.Accepts script w.files program) :
    w.files.Drifts ((b.buildInto script layout).on programs w).2.files := by
  rcases buildInto_cases programs layout accepts with
    ⟨-, same⟩ | ⟨cleared, ending, clears, reached, ended⟩
  · rw [same]
    exact FileTree.drifts_of_here rfl
  · have here := reached _ (tolerates_here layout framed cleared program.units) rfl
    have drifts := (drifts_clear clears).trans (FileTree.drifts_of_here here)
    rcases ended with ended | ended <;> rw [ended]
    · exact drifts
    · exact drifts.trans (drifts_tidied known ending)

/-- The directory that a build goes to can be named once the build directory was made. -/
private theorem named_of_stages (nested : layout.Nested base) {files staged : FileTree}
    (stages : b.Stages layout program files staged) : (files.place base).Named := by
  obtain ⟨ready, ⟨cleared, clears, makes⟩, -⟩ := stages
  have found := FileTree.find_of_createDirectories nested.classes_isIn makes
  have named := (FileTree.named_of_resolve nested.classes_isIn (FileTree.find_eq_ok.mp found).1).1
  have settled : ready.place base = files.place base := by
    have made := (FileTree.writes_createDirectories layout.classes cleared).place_eq base
    rw [makes] at made
    exact made.trans (nested.place_clear clears)
  obtain ⟨name, -, root⟩ := ready.exists_place_eq nested.root
  rw [nested.place_classes, root, settled, List.append_assoc] at named
  exact (Route.named_append.mp named).1

/-- When a program is packed, the directory that it goes to is where it was. -/
private theorem place_makeArtifact (nested : layout.Nested base) (framed : programs.Framed)
    {staged : FileTree} (stages : b.Stages layout program w.files staged) (locator : Locator) :
    ((b.makeArtifact layout locator program).on programs
      { w with files := staged }).2.files.place base = w.files.place base := by
  have done : (b.stage layout program).on programs w = (.ok (), { w with files := staged }) :=
    stage_eq_ok.mpr ⟨staged, stages, rfl⟩
  obtain ⟨ready, ⟨cleared, clears, -⟩, -⟩ := stages
  have tolerates := tolerates_here layout framed cleared program.units
  have prepared := tolerates.stage (b := b) clears rfl
  rw [done] at prepared
  have packed := tolerates.makeArtifact b locator _ prepared
  exact (FileTree.place_eq_of_here packed base).trans (nested.place_clear clears)

/-! ### One build -/

/-- A build that delivers was prepared for a program. -/
private theorem exists_of_built
    (built : (b.build script).on programs w = (.ok (.built artifact), after)) :
    ∃ className program staged, script.scriptClass = .ok className ∧
      b.Accepts script w.files program ∧
      b.Stages (b.layoutFor script className) program w.files staged ∧
      artifact = (b.layoutFor script className).artifact ∧
      after = ((b.buildInto script (b.layoutFor script className)).on programs w).2 := by
  cases accepted : script.scriptClass with
  | error failure =>
    rw [build, on_bind, on_ofExcept, accepted] at built
    cases built
  | ok className =>
    rw [on_build accepted] at built
    have outcome := congrArg Prod.fst built
    by_cases accepts : ∃ program, b.Accepts script w.files program
    · obtain ⟨program, text, read, made⟩ := accepts
      obtain ⟨rfl, staged, stages, -⟩ := (buildInto_eq_built read made).mp outcome
      exact ⟨className, program, staged, rfl, ⟨text, read, made⟩, stages, rfl, by rw [built]⟩
    · obtain ⟨_, output, ended, never⟩ :=
        buildInto_of_not_accepts programs (b.layoutFor script className) accepts
      rw [ended] at outcome
      exact absurd outcome (never artifact)

/-- A script that is built has its place in its directory, by its path alone. -/
private theorem Accepts.place_eq {className : Text} {files : FileTree}
    (accepts : b.Accepts script files program) (accepted : script.scriptClass = .ok className)
    (tree : FileTree) :
    tree.place script = tree.place script.parent ++ [className ++ Path.scriptEnding] := by
  obtain ⟨text, read, -⟩ := accepts
  obtain ⟨place, content, executable, found⟩ : ∃ place content executable,
      files.find script = .ok (place, .file content executable) := by
    rw [FileTree.readText] at read
    rcases found : files.find script with error | ⟨place, _ | ⟨content, executable⟩⟩ <;>
      rw [found] at read
    · cases read
    · cases read
    · exact ⟨place, content, executable, rfl⟩
  obtain ⟨-, -, -, name, named, split⟩ := FileTree.exists_of_find found
  obtain rfl : name = className ++ Path.scriptEnding :=
    Option.some.inj (named.symm.trans (Path.exists_of_scriptClass accepted).1)
  exact split tree

/-- Packing ends well only if the artifact is there; a file is then executable. -/
private theorem node?_artifact_of_package (className : Text) {u : Unit}
    (packed : (b.package layout className).on programs w = (.ok u, after)) :
    (∃ content, after.files.node? (after.files.place layout.artifact) =
        some (.file content true)) ∨
      after.files.node? (after.files.place layout.artifact) = some .directory := by
  obtain ⟨reply, called, -, next⟩ := on_bind_eq_ok.mp packed
  split at next
  · obtain ⟨_, read, finds, marks⟩ := on_bind_eq_ok.mp next
    obtain ⟨-, rfl⟩ := on_find_eq_ok.mp (on_during_eq_ok.mp finds)
    obtain ⟨files, marked, rfl⟩ := on_markExecutable_eq_ok.mp (on_during_eq_ok.mp marks)
    exact FileTree.node?_of_markExecutable marked
  · rw [on_during_eq_ok, on_throw] at next
    cases next

private theorem exists_package_of_makeArtifact {locator : Locator}
    (made : (b.makeArtifact layout locator program).on programs w = (.ok true, after)) :
    ∃ compiled u, (b.package layout program.className).on programs compiled = (.ok u, after) := by
  obtain ⟨passed, compiled, -, next⟩ := on_bind_eq_ok.mp made
  cases passed with
  | false => cases next
  | true =>
    rw [if_pos rfl] at next
    obtain ⟨u, packed, packs, ended⟩ := on_bind_eq_ok.mp next
    cases ended
    exact ⟨compiled, u, packs⟩

private theorem place_artifact (b : Builder) (tree : FileTree) {className : Text}
    (accepted : script.scriptClass = .ok className) :
    tree.place (b.layoutFor script className).artifact =
      tree.place (Layout.baseFor script b.config.outDir) ++ [className ++ ".jar"] := by
  obtain ⟨-, -, inPart⟩ := Path.exists_of_scriptClass accepted
  exact tree.place_child (by simpa using inPart) (Path.isName_of_length (by simp)) _

/-- The artifact does not lie in the build directory, nor does it have its name. -/
private theorem root_not_isPrefix_artifact (b : Builder) (tree : FileTree) {className : Text}
    (accepted : script.scriptClass = .ok className) :
    ¬tree.place (b.layoutFor script className).root <+:
      tree.place (b.layoutFor script className).artifact := by
  obtain ⟨-, first, inPart⟩ := Path.exists_of_scriptClass accepted
  obtain ⟨visible, hidden⟩ := Path.isName_className first
  obtain ⟨name, short, root_eq⟩ : ∃ name, name.length ≤ className.length + 1 ∧
      tree.place (b.layoutFor script className).root =
        tree.place (Layout.baseFor script b.config.outDir) ++ [name] := by
    rw [layoutFor, Layout.of]
    split
    · exact ⟨className, by simp, tree.place_child inPart visible _⟩
    · exact ⟨'.' :: className, by simp, tree.place_child (by simpa using inPart) hidden _⟩
  rw [place_artifact b tree accepted, root_eq, List.prefix_append_right_inj]
  intro same
  obtain rfl : name = className ++ ".jar" := by simpa using same
  simp at short

/-- The results of a build that delivers are at places that can be named, and these are the places
that they had before, wherever the files come from. -/
private theorem settled_of_built
    (built : (b.build script).on programs w = (.ok (.built artifact), after)) {files : FileTree}
    (drifts : files.Drifts w.files) :
    w.files.place artifact = files.place artifact ∧ (files.place artifact).Named ∧
      w.files.place (b.rootFor script) = files.place (b.rootFor script) := by
  obtain ⟨className, program, staged, accepted, -, stages, rfl, -⟩ := exists_of_built built
  have nested := nested_layoutFor (b := b) accepted
  have named := named_of_stages nested stages
  have same := (drifts _).resolve_right (not_not.mpr named)
  have artifact := FileTree.place_eq_of_isIn nested.artifact same
  rw [rootFor, Path.className_of_scriptClass accepted]
  refine ⟨artifact, ?_, FileTree.place_eq_of_isIn nested.root same⟩
  rw [place_artifact b files accepted, ← same]
  exact (Route.named_concat (Path.isName_of_length (by simp))).mpr named

/-- A build that delivers leaves an artifact. -/
private theorem node?_artifact_of_built (framed : programs.Framed)
    (built : (b.build script).on programs w = (.ok (.built artifact), after)) :
    (∃ content, after.files.node? (w.files.place artifact) = some (.file content true)) ∨
      after.files.node? (w.files.place artifact) = some .directory := by
  have routed := (settled_of_built built (FileTree.drifts_of_here rfl)).2.1
  obtain ⟨className, program, staged, accepted, ⟨text, read, made⟩, stages, rfl, rfl⟩ :=
    exists_of_built built
  have nested := nested_layoutFor (b := b) accepted
  rw [on_build accepted] at built
  obtain ⟨-, staged', stages', makes⟩ :=
    (buildInto_eq_built read made).mp (congrArg Prod.fst built)
  obtain rfl := stages.unique stages'
  have done : (b.stage (b.layoutFor script className) program).on programs w =
      (.ok (), { w with files := staged }) := stage_eq_ok.mpr ⟨staged, stages, rfl⟩
  obtain ⟨compiled, u, packs⟩ := exists_package_of_makeArtifact (Prod.ext makes rfl)
  have there := node?_artifact_of_package _ packs
  have settled := FileTree.place_eq_of_isIn nested.artifact
    (place_makeArtifact nested framed stages (locatorFor script text program))
  rw [files_buildInto read made, done]
  rw [settled] at there
  -- The artifact is outside the directories that are removed.
  have uncovered : ¬∃ directory ∈ b.discarded (b.layoutFor script className),
      ((b.makeArtifact (b.layoutFor script className) (locatorFor script text program)
        program).on programs { w with files := staged }).2.files.place directory <+:
        w.files.place (b.layoutFor script className).artifact := by
    rintro ⟨directory, member, covers⟩
    rw [← settled] at covers
    exact root_not_isPrefix_artifact b _ accepted ((nested.root_isPrefix _ member).trans covers)
  dsimp only
  rwa [node?_tidied nested rfl routed uncovered]

/-- No file stands in the way of a build directory that is made. -/
private theorem Stages.vacant {files staged : FileTree}
    (stages : b.Stages layout program files staged) (nested : layout.Nested base) :
    FileTree.Vacant (files.place layout.root) files := by
  intro content executable file
  obtain ⟨ready, ⟨cleared, clears, made⟩, -⟩ := stages
  rw [Layout.clear] at clears
  split at clears
  · obtain ⟨route, found, -⟩ := FileTree.removeDirectory_eq_ok.mp clears
    obtain ⟨resolved, directory⟩ := FileTree.find_eq_ok.mp found
    obtain ⟨rfl, -⟩ := FileTree.eq_place_of_resolve resolved
    cases directory.symm.trans file
  · cases clears
    -- Directories are made where nothing is, so the file would still be there.
    have spares := FileTree.spares_createDirectories layout.classes
      (show files.node? (files.place layout.root) ≠ none by simp [file])
    rw [made] at spares
    obtain ⟨-, root⟩ := find_classes nested made (.refl (fun _ => True) ready)
    have directory := (FileTree.find_eq_ok.mp root).2
    rw [spares.place_eq, spares.same] at directory
    cases directory.symm.trans file

/-- A build that delivers spares the files that are neither its artifact nor in its directory. -/
private theorem node?_of_built (framed : programs.Framed)
    (built : (b.build script).on programs w = (.ok (.built artifact), after))
    {directory : Route} {name : Text} {content : Content} {executable : Bool}
    (routed : Route.Named (directory ++ [name]))
    (file : w.files.node? (directory ++ [name]) = some (.file content executable))
    (other : directory ++ [name] ≠ w.files.place artifact)
    (outside : ¬w.files.place (b.rootFor script) <+: directory) :
    after.files.node? (directory ++ [name]) = some (.file content executable) := by
  obtain ⟨className, program, staged, accepted, accepts, stages, rfl, rfl⟩ := exists_of_built built
  have nested := nested_layoutFor (b := b) accepted
  rw [rootFor, Path.className_of_scriptClass accepted] at outside
  have uncovered : ¬w.files.place (b.layoutFor script className).root <+: directory ++ [name] := by
    rw [List.prefix_concat_iff]
    rintro (same | inside)
    · refine stages.vacant nested content executable ?_
      rw [same, file]
    · exact outside inside
  rcases confined_buildInto nested rfl framed (accepts.wellNamed accepted) accepts _ routed
    uncovered other with same | ⟨free, -⟩
  · rw [same, file]
  · cases free.symm.trans file

/-! ### A run of builds -/

variable {deliveries : List Delivery} {files : FileTree}

private theorem drifts_of_built (framed : programs.Framed)
    (built : (b.build script).on programs w = (.ok (.built artifact), after)) :
    w.files.Drifts after.files := by
  obtain ⟨className, program, staged, accepted, accepts, -, -, rfl⟩ := exists_of_built built
  exact drifts_buildInto rfl framed accepts

/-- Each delivery of a run is that of a build, which finds what can be named where it was at the
beginning, and the later ones are those of a run. -/
private theorem Delivers.exists_build (framed : programs.Framed) {before later : List Delivery}
    {own : Delivery} (delivers : b.Delivers programs w (before ++ own :: later) after) :
    ∃ start, w.files.Drifts start.files ∧
      (b.build own.script).on programs start = (.ok (.built own.artifact), own.after) ∧
        b.Delivers programs own.after later after := by
  induction before generalizing w with
  | nil =>
    cases delivers with
    | build built rest => exact ⟨w, FileTree.drifts_of_here rfl, built, rest⟩
  | cons first before ih =>
    cases delivers with
    | build built rest =>
      obtain ⟨start, drifts, own, later⟩ := ih rest
      exact ⟨start, (drifts_of_built framed built).trans drifts, own, later⟩

/-- A run of builds spares the files that are neither artifacts nor in build directories. -/
private theorem Delivers.node?_eq (framed : programs.Framed)
    (delivers : b.Delivers programs w deliveries after) (drifts : files.Drifts w.files)
    {directory : Route} {name : Text} {content : Content} {executable : Bool}
    (routed : Route.Named (directory ++ [name]))
    (file : w.files.node? (directory ++ [name]) = some (.file content executable))
    (other : ∀ delivery ∈ deliveries, directory ++ [name] ≠ files.place delivery.artifact)
    (outside : ∀ delivery ∈ deliveries, ¬files.place (b.rootFor delivery.script) <+: directory) :
    after.files.node? (directory ++ [name]) = some (.file content executable) := by
  induction delivers with
  | done w => exact file
  | build built later ih =>
    rw [List.forall_mem_cons] at other outside
    obtain ⟨artifact, -, root⟩ := settled_of_built built drifts
    refine ih (drifts.trans (drifts_of_built framed built)) ?_ other.2 outside.2
    exact node?_of_built framed built routed file (artifact ▸ other.1) (root ▸ outside.1)

end Builder

/-! ### Where artifacts go -/

/-- The class of a delivery names its script and its artifact, in every tree. -/
structure Delivery.Names (delivery : Delivery) (b : Builder) (className : Text) : Prop where
  fileName : delivery.script.fileName? = some (className ++ Path.scriptEnding)
  script : ∀ tree : FileTree, tree.place delivery.script =
    tree.place delivery.script.parent ++ [className ++ Path.scriptEnding]
  artifact : delivery.artifact =
    (Layout.baseFor delivery.script b.config.outDir).child (className ++ ".jar")
  place : ∀ tree : FileTree, tree.place delivery.artifact =
    tree.place (Layout.baseFor delivery.script b.config.outDir) ++ [className ++ ".jar"]
  root : ∀ tree : FileTree, ∃ name, tree.place (b.rootFor delivery.script) =
    tree.place (Layout.baseFor delivery.script b.config.outDir) ++ [name]

namespace Builder

variable {b : Builder} {programs : Programs} {w after : Workspace} {deliveries : List Delivery}

/-- Each delivery of a run has its names. -/
theorem Delivers.exists_names (delivers : b.Delivers programs w deliveries after) :
    ∀ delivery ∈ deliveries, ∃ className, delivery.Names b className := by
  induction delivers with
  | done w => simp
  | build built later ih =>
    rw [List.forall_mem_cons]
    refine ⟨?_, ih⟩
    obtain ⟨className, program, staged, accepted, accepts, -, rfl, -⟩ := exists_of_built built
    refine ⟨className, (Path.exists_of_scriptClass accepted).1, accepts.place_eq accepted, rfl,
      fun tree => place_artifact b tree accepted, fun tree => ?_⟩
    obtain ⟨name, -, root⟩ := exists_place_layoutFor (b := b) tree accepted
    exact ⟨name, by rw [rootFor, Path.className_of_scriptClass accepted, root]⟩

end Builder

namespace Delivery.Names

variable {b : Builder} {delivery other : Delivery} {className className' : Text}

/-- Beside their scripts, artifacts are as different as the scripts. -/
private theorem script_place_eq (names : delivery.Names b className)
    (names' : other.Names b className') (beside : b.config.outDir = none) {tree : FileTree}
    (same : tree.place delivery.artifact = tree.place other.artifact) :
    tree.place delivery.script = tree.place other.script := by
  rw [names.place, names'.place, beside, Path.place_baseFor, Path.place_baseFor] at same
  obtain ⟨parents, classes⟩ := List.append_inj' same rfl
  obtain rfl : className = className' := List.append_cancel_right (List.singleton_inj.mp classes)
  rw [names.script, names'.script, parents]

/-- In a common directory, artifacts are as different as the file names of the scripts. -/
private theorem fileName?_eq (names : delivery.Names b className)
    (names' : other.Names b className') {directory : Path}
    (chosen : b.config.outDir = some directory) {tree : FileTree}
    (same : tree.place delivery.artifact = tree.place other.artifact) :
    delivery.script.fileName? = other.script.fileName? := by
  rw [names.place, names'.place, chosen] at same
  obtain ⟨-, classes⟩ := List.append_inj' same rfl
  obtain rfl : className = className' := List.append_cancel_right (List.singleton_inj.mp classes)
  rw [names.fileName, names'.fileName]

private theorem artifact_eq (names : delivery.Names b className)
    (names' : other.Names b className') {directory : Path}
    (chosen : b.config.outDir = some directory)
    (same : delivery.script.fileName? = other.script.fileName?) :
    delivery.artifact = other.artifact := by
  rw [names.fileName, names'.fileName] at same
  obtain rfl : className = className' := List.append_cancel_right (Option.some.inj same)
  rw [names.artifact, names'.artifact, chosen]
  rfl

/-- The build directories of a common directory lie in it, so that they do not hold it. -/
private theorem not_encloses (names : delivery.Names b className)
    (chosen : b.config.outDir ≠ none) (files : FileTree) (other : Path) :
    ¬b.Encloses files delivery.script other := by
  obtain ⟨directory, chosen⟩ := Option.ne_none_iff_exists'.mp chosen
  obtain ⟨name, root⟩ := names.root files
  intro encloses
  have longer := List.IsPrefix.length_le encloses
  rw [root, chosen, List.length_append, List.length_singleton] at longer
  exact Nat.not_succ_le_self _ longer

end Delivery.Names

namespace Builder

variable {b : Builder} {programs : Programs} {w after : Workspace} {deliveries : List Delivery}

/-- The artifacts of different scripts differ, be it as paths or as places, exactly if they go
beside their scripts or the scripts have different file names. -/
private theorem Delivers.nodup_map_iff (delivers : b.Delivers programs w deliveries after)
    (tree : FileTree) (distinct : (deliveries.map (tree.place ·.script)).Nodup) {α : Type}
    (key : Delivery → α)
    (place : ∀ d d', key d = key d' → tree.place d.artifact = tree.place d'.artifact)
    (path : ∀ d d', d.artifact = d'.artifact → key d = key d') :
    (deliveries.map key).Nodup ↔
      b.config.outDir = none ∨ (deliveries.map (·.script.fileName?)).Nodup := by
  have names := delivers.exists_names
  cases chosen : b.config.outDir with
  | none =>
    refine iff_of_true ?_ (.inl rfl)
    rw [List.Nodup, List.pairwise_map] at distinct ⊢
    refine distinct.imp_of_mem fun {d d'} listed listed' differ same => differ ?_
    obtain ⟨className, named⟩ := names d listed
    obtain ⟨className', named'⟩ := names d' listed'
    exact named.script_place_eq named' chosen (place d d' same)
  | some directory =>
    rw [or_iff_right (by simp), List.Nodup, List.Nodup, List.pairwise_map, List.pairwise_map]
    refine List.Pairwise.iff_of_mem fun {d d'} listed listed' => not_congr ?_
    obtain ⟨className, named⟩ := names d listed
    obtain ⟨className', named'⟩ := names d' listed'
    exact ⟨fun same => named.fileName?_eq named' chosen (place d d' same),
      fun same => path d d' (named.artifact_eq named' chosen same)⟩

end Builder

namespace Session

/-- **The artifacts of a session.** If all scripts of a session are different files and all are
built, their artifacts differ exactly if they go beside the scripts or the scripts have different
file names. If the programs write only where they may, each build leaves its artifact, and an
artifact that differs from the others is still there in the end, unless a later build has a build
directory that holds it; that never happens in a common output directory. -/
theorem nodup_artifacts_iff_and_kept {programs : Programs} {line : CommandLine}
    {w after : Workspace} (done : (perform line).on programs w = (.ok (), after))
    (distinct : (line.scripts.map w.files.place).Nodup) :
    ∃ (b : Builder) (deliveries : List Delivery),
      (Config.resolve line).on programs w = (.ok b.config, w) ∧
      b.Delivers programs w deliveries after ∧ deliveries.map (·.script) = line.scripts ∧
      ((deliveries.map (·.artifact)).Nodup ↔
        b.config.outDir = none ∨ (line.scripts.map Path.fileName?).Nodup) ∧
      ((deliveries.map (w.files.place ·.artifact)).Nodup ↔ (deliveries.map (·.artifact)).Nodup) ∧
      (b.config.outDir ≠ none →
        ∀ script ∈ line.scripts, ∀ other, ¬b.Encloses w.files script other) ∧
      (programs.Framed → ∀ before own later, deliveries = before ++ own :: later →
        ((∃ content, own.after.files.node? (w.files.place own.artifact) =
            some (.file content true)) ∨
          own.after.files.node? (w.files.place own.artifact) = some .directory) ∧
        ((deliveries.map (·.artifact)).Nodup →
          (∀ other ∈ later, ¬b.Encloses w.files other.script own.script) →
          ∀ content, own.after.files.node? (w.files.place own.artifact) =
              some (.file content true) →
            after.files.node? (w.files.place own.artifact) = some (.file content true))) := by
  obtain ⟨b, deliveries, resolves, delivers, listed⟩ := exists_of_perform done
  have names := delivers.exists_names
  have fileNames : line.scripts.map Path.fileName? = deliveries.map (·.script.fileName?) := by
    rw [← listed, List.map_map]
    rfl
  have different : (deliveries.map (w.files.place ·.script)).Nodup := by
    rw [← listed, List.map_map] at distinct
    exact distinct
  have paths := delivers.nodup_map_iff w.files different (·.artifact)
    (fun _ _ same => congrArg w.files.place same) (fun _ _ same => same)
  have places := delivers.nodup_map_iff w.files different (w.files.place ·.artifact)
    (fun _ _ same => same) (fun _ _ same => congrArg w.files.place same)
  rw [fileNames]
  refine ⟨b, deliveries, resolves, delivers, listed, paths, places.trans paths.symm, ?_, ?_⟩
  · intro chosen script member other
    rw [← listed] at member
    obtain ⟨delivery, delivered, rfl⟩ := List.mem_map.mp member
    obtain ⟨className, named⟩ := names delivery delivered
    exact named.not_encloses chosen w.files other
  · rintro framed before own later rfl
    obtain ⟨className, named⟩ := names own (by simp)
    obtain ⟨start, drifts, built, rest⟩ := delivers.exists_build framed
    obtain ⟨settled, routed, -⟩ := Builder.settled_of_built built drifts
    have left := Builder.node?_artifact_of_built framed built
    rw [settled] at left
    refine ⟨left, fun apart outside content file => ?_⟩
    rw [paths, ← places, List.map_append, List.map_cons] at apart
    have other : ∀ delivery ∈ later,
        w.files.place own.artifact ≠ w.files.place delivery.artifact := by
      intro delivery member same
      refine (List.nodup_cons.mp (List.nodup_append.mp apart).2.1).1 ?_
      exact List.mem_map.mpr ⟨delivery, member, same.symm⟩
    rw [named.place] at routed file other ⊢
    exact rest.node?_eq framed (drifts.trans (Builder.drifts_of_built framed built)) routed file
      other outside

/-- Two scripts of one name, each with its artifact beside it. -/
theorem artifacts_kept_beside_scripts :
    let w := Workspace.ofFiles
      ⟨[(["home", "catalog.json"], .file (.text "\x7b\x7d") false),
        (["home", "a"], .directory), (["home", "a", "Main.auto"], .file (.text "x = 1;\n") false),
        (["home", "b"], .directory), (["home", "b", "Main.auto"], .file (.text "x = 2;\n") false)],
        ["home"]⟩
    let line : CommandLine :=
      ⟨["a/Main.auto", "/home/b/Main.auto"], [], [(.catalog, "catalog.json")]⟩
    ((perform line).on .plain w).1.toOption = some () ∧ (line.scripts.map w.files.place).Nodup ∧
      ∃ b deliveries, Builder.Delivers b .plain w deliveries ((perform line).on .plain w).2 ∧
        deliveries.map (·.script) = line.scripts ∧
        (deliveries.map (w.files.place ·.artifact)).Nodup ∧
        ∀ before own later, deliveries = before ++ own :: later →
          (∃ content, own.after.files.node? (w.files.place own.artifact) =
              some (.file content true)) ∨
            own.after.files.node? (w.files.place own.artifact) = some .directory := by
  intro w line
  have done : ((perform line).on .plain w).1.toOption = some () := by decide +kernel
  have distinct : (line.scripts.map w.files.place).Nodup := by decide +kernel
  have beside : ((Config.resolve line).on .plain w).1.toOption.map (·.outDir) = some none := by
    decide +kernel
  have ended : (perform line).on .plain w = (.ok (), ((perform line).on .plain w).2) := by
    refine Prod.ext ?_ rfl
    cases result : ((perform line).on .plain w).1 with
    | error failure =>
      rw [result] at done
      cases done
    | ok u => rfl
  obtain ⟨b, deliveries, resolves, delivers, listed, paths, places, -, kept⟩ :=
    nodup_artifacts_iff_and_kept ended distinct
  rw [resolves] at beside
  exact ⟨done, distinct, b, deliveries, delivers, listed,
    places.mpr (paths.mpr (.inl (Option.some.inj beside))), fun before own later split =>
      (kept Programs.framed_plain before own later split).1⟩

/-- Two scripts of one name, built into one directory: both are packed into the same artifact. -/
theorem artifact_shared_in_common_directory :
    let w := Workspace.ofFiles
      ⟨[(["home", "catalog.json"], .file (.text "\x7b\x7d") false),
        (["home", "a"], .directory), (["home", "a", "Main.auto"], .file (.text "x = 1;\n") false),
        (["home", "b"], .directory), (["home", "b", "Main.auto"], .file (.text "x = 2;\n") false)],
        ["home"]⟩
    let line : CommandLine :=
      ⟨["a/Main.auto", "b/Main.auto"], [], [(.catalog, "catalog.json"), (.outDir, "out")]⟩
    let packing : Call := .package "out/Main.jar" "Main" "out/.Main/class"
    ((perform line).on .plain w).1.toOption = some () ∧ (line.scripts.map w.files.place).Nodup ∧
      (((perform line).on .plain w).2.log.map (·.call)).filter
        (fun call => call matches .package _ _ _) = [packing, packing] := by
  decide +kernel

/-- A later build whose directory holds an earlier artifact clears it away. -/
example :
    let w := Workspace.ofFiles
      ⟨[(["home", "Main.auto"], .file (.text "x = 1;\n") false), (["home", "Main"], .directory),
        (["home", "Main", "Part.auto"], .file (.text "x = 2;\n") false)], ["home"]⟩
    let b : Builder := ⟨{ Config.default with keepClasses := true }, .empty⟩
    let first := (b.build "Main/Part.auto").on .plain w
    let second := (b.build "Main.auto").on .plain first.2
    first.1.toOption = some (.built "Main/Part.jar") ∧
      second.1.toOption = some (.built "./Main.jar") ∧
      second.2.files.node? ["home", "Main", "Part.jar"] = none := by
  decide +kernel

end Session

end ScriptLoom
