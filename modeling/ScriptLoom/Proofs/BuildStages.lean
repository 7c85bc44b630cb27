import ScriptLoom.Proofs.Actions

/-! # The stages of a build

A build reads the script and makes a program of it, prepares its directory, compiles and packs, and
cleans up. What the stages do to the files is said here on file trees, so that later proofs need
not run the stages again.
-/

namespace ScriptLoom

/-- The files without the directory of an earlier build. -/
def Layout.clear (layout : Layout) (files : FileTree) : Except SystemError FileTree :=
  if files.has layout.root then files.removeDirectory layout.root else .ok files

/-- The build directory can be made afresh. -/
def Layout.Prepares (layout : Layout) (files ready : FileTree) : Prop :=
  ∃ cleared, layout.clear files = .ok cleared ∧
    cleared.createDirectories layout.classes = (.ok (), ready)

/-- The files without a directory, if it can be removed. -/
def FileTree.removeQuietly (path : Path) (files : FileTree) : FileTree :=
  (files.removeDirectory path).toOption.getD files

/-- The files with the sources of units written into a directory, one after the other. -/
def FileTree.writeUnits (directory : Path) (units : List NamedSource) (files : FileTree) :
    Except SystemError FileTree :=
  units.foldlM (fun files unit => files.write (Builder.unitFile directory unit.name)
    (.text (SourceUnit.endLine unit.source))) files

namespace Builder

open ScriptLoom.Action

/-- The layout of the build of a script. -/
def layoutFor (b : Builder) (script : Path) (className : Text) : Layout :=
  .of (Layout.baseFor script b.config.outDir) className b.config.keepsOutput

/-- The call that compiles a unit. -/
def compileCall (layout : Layout) (unit : NamedSource) : Call :=
  .compile (unitFile layout.sources unit.name) layout.classes

/-- The call that packs a program. -/
def packageCall (layout : Layout) (program : Program) : Call :=
  .package layout.artifact program.className layout.classes

/-- A script is read and found free of problems, and a program is made of it. -/
def Accepts (b : Builder) (script : Path) (files : FileTree) (program : Program) : Prop :=
  ∃ text, files.readText script = .ok text ∧
    Program.ofScript text (script.fileName?.getD []) b.catalog = .ok program

/-- Only one program is made of a script. -/
theorem Accepts.unique {b : Builder} {script : Path} {files : FileTree} {program other : Program}
    (accepts : b.Accepts script files program) (accepts' : b.Accepts script files other) :
    program = other := by
  obtain ⟨text, read, made⟩ := accepts
  obtain ⟨text', read', made'⟩ := accepts'
  cases read.symm.trans read'
  exact Except.ok.inj (made.symm.trans made')

/-- The build directory is made, and the sources stand in it if they are to be kept. -/
def Stages (b : Builder) (layout : Layout) (program : Program) (files staged : FileTree) : Prop :=
  ∃ ready, layout.Prepares files ready ∧
    if b.config.keepSources then
      ∃ made, ready.createDirectories layout.sources = (.ok (), made) ∧
        made.writeUnits layout.sources (program.mainUnit :: program.auxiliary) = .ok staged
    else staged = ready

/-- The preparation of a build directory has one result. -/
theorem Stages.unique {b : Builder} {layout : Layout} {program : Program}
    {files staged other : FileTree} (stages : b.Stages layout program files staged)
    (stages' : b.Stages layout program files other) : staged = other := by
  obtain ⟨ready, ⟨cleared, clears, prepares⟩, rest⟩ := stages
  obtain ⟨ready', ⟨cleared', clears', prepares'⟩, rest'⟩ := stages'
  cases clears.symm.trans clears'
  cases prepares.symm.trans prepares'
  by_cases keep : b.config.keepSources = true
  · rw [if_pos keep] at rest rest'
    obtain ⟨made, makes, writes⟩ := rest
    obtain ⟨made', makes', writes'⟩ := rest'
    cases makes.symm.trans makes'
    exact Except.ok.inj (writes.symm.trans writes')
  · rw [if_neg keep] at rest rest'
    rw [rest, rest']

/-- The directories that a build removes when it ends. -/
def discarded (b : Builder) (layout : Layout) : List Path :=
  if layout.temporary then [layout.root]
  else (if b.config.keepSources then [] else [layout.sources])
    ++ if b.config.keepClasses then [] else [layout.classes]

/-- A build without anything to keep removes its whole directory, and another one the parts that it
does not keep. -/
theorem mem_discarded_iff {b : Builder} {layout : Layout} {directory : Path} :
    directory ∈ b.discarded layout ↔
      layout.temporary = true ∧ directory = layout.root ∨
      layout.temporary = false ∧ b.config.keepSources = false ∧ directory = layout.sources ∨
      layout.temporary = false ∧ b.config.keepClasses = false ∧ directory = layout.classes := by
  rw [discarded]
  cases layout.temporary <;> cases b.config.keepSources <;> cases b.config.keepClasses <;> simp

/-- The preparation of the build directory. -/
def stage (b : Builder) (layout : Layout) (program : Program) : Action Unit := do
  prepare layout
  if b.config.keepSources then writeSources layout program

variable {b : Builder} {programs : Programs} {script : Path} {layout : Layout} {program : Program}
  {w after : Workspace} {u : Unit}

/-- The build directory is cleared and then made. -/
theorem on_prepare (programs : Programs) (layout : Layout) (w : Workspace) :
    (prepare layout).on programs w =
      match layout.clear w.files with
      | .error error => (.error (.during (.clearing layout.root) (.of (.system error))), w)
      | .ok cleared =>
        (Action.createDirectories layout.classes).on programs { w with files := cleared } := by
  have asked : (has layout.root).on programs w = (.ok (w.files.has layout.root), w) := rfl
  rw [prepare, on_bind, asked, Layout.clear]
  dsimp only
  by_cases there : w.files.has layout.root = true
  · rw [if_pos there, if_pos there, on_bind, on_during, on_removeDirectory]
    cases w.files.removeDirectory layout.root <;> rfl
  · rw [if_neg there, if_neg there]

/-- The build directory is made exactly if the files allow it. -/
theorem prepare_eq_ok :
    (prepare layout).on programs w = (.ok u, after) ↔
      ∃ ready, layout.Prepares w.files ready ∧ after = { w with files := ready } := by
  rw [on_prepare]
  cases cleared : layout.clear w.files with
  | error error => simp [Layout.Prepares, cleared]
  | ok files => simp [Action.createDirectories, on_during_eq_ok, on_makeDirectories_eq_ok,
      Layout.Prepares, cleared]

/-- Units are written exactly if the files allow it. -/
theorem forM_writeUnit_eq_ok {directory : Path} {units : List NamedSource} :
    (units.forM (writeUnit directory)).on programs w = (.ok u, after) ↔
      ∃ files, w.files.writeUnits directory units = .ok files ∧
        after = { w with files := files } := by
  induction units generalizing w with
  | nil =>
    change (Except.ok (), w) = (.ok u, after) ↔ ∃ files, Except.ok w.files = .ok files ∧ _
    simp [eq_comm]
  | cons unit units ih =>
    change (writeUnit directory unit >>= fun _ => units.forM (writeUnit directory)).on programs w =
      _ ↔ _
    rw [on_bind_eq_ok]
    simp only [writeUnit, on_write_eq_ok, ih, FileTree.writeUnits, List.foldlM_cons]
    cases w.files.write (unitFile directory unit.name) (.text (SourceUnit.endLine unit.source)) with
    | error error => simp [bind, Except.bind]
    | ok files => simp [bind, Except.bind]

private theorem writeSources_eq_ok :
    (writeSources layout program).on programs w = (.ok u, after) ↔
      ∃ made staged, w.files.createDirectories layout.sources = (.ok (), made) ∧
        made.writeUnits layout.sources (program.mainUnit :: program.auxiliary) = .ok staged ∧
          after = { w with files := staged } := by
  have written : ∀ w : Workspace,
      (do writeUnit layout.sources program.mainUnit
          program.auxiliary.forM (writeUnit layout.sources) : Action Unit).on programs w =
          (.ok u, after) ↔
        ∃ staged, w.files.writeUnits layout.sources (program.mainUnit :: program.auxiliary) =
          .ok staged ∧ after = { w with files := staged } := fun w =>
    show (List.forM (program.mainUnit :: program.auxiliary)
      (writeUnit layout.sources)).on programs w = _ ↔ _ from forM_writeUnit_eq_ok
  rw [writeSources, on_during_eq_ok, on_bind_eq_ok]
  simp only [on_makeDirectories_eq_ok, written]
  constructor
  · rintro ⟨-, -, ⟨made, first, rfl⟩, staged, second, rfl⟩
    exact ⟨made, staged, first, second, rfl⟩
  · rintro ⟨made, staged, first, second, rfl⟩
    exact ⟨(), _, ⟨made, first, rfl⟩, staged, second, rfl⟩

/-- The preparation succeeds exactly if the files allow it. -/
theorem stage_eq_ok :
    (b.stage layout program).on programs w = (.ok u, after) ↔
      ∃ staged, b.Stages layout program w.files staged ∧ after = { w with files := staged } := by
  rw [stage, on_bind_eq_ok]
  simp only [prepare_eq_ok, Stages]
  by_cases keep : b.config.keepSources = true
  · simp only [keep, if_true, writeSources_eq_ok]
    constructor
    · rintro ⟨-, -, ⟨ready, first, rfl⟩, made, staged, second, third, rfl⟩
      exact ⟨staged, ⟨ready, first, made, second, third⟩, rfl⟩
    · rintro ⟨staged, ⟨ready, first, made, second, third⟩, rfl⟩
      exact ⟨(), _, ⟨ready, first, rfl⟩, made, staged, second, third, rfl⟩
  · simp only [keep, Bool.false_eq_true, if_false, on_pure, Prod.mk.injEq]
    constructor
    · rintro ⟨-, -, ⟨ready, first, rfl⟩, -, rfl⟩
      exact ⟨ready, ⟨ready, first, rfl⟩, rfl⟩
    · rintro ⟨staged, ⟨ready, first, rfl⟩, rfl⟩
      exact ⟨(), _, ⟨staged, first, rfl⟩, trivial, rfl⟩

/-- The preparation succeeds if the files allow it, and else it fails. -/
theorem stage_cases (b : Builder) (programs : Programs) (layout : Layout) (program : Program)
    (w : Workspace) :
    (∃ staged, b.Stages layout program w.files staged ∧
      (b.stage layout program).on programs w = (.ok (), { w with files := staged })) ∨
    (¬∃ staged, b.Stages layout program w.files staged) ∧
      ∃ failure after, (b.stage layout program).on programs w = (.error failure, after) := by
  rcases done : (b.stage layout program).on programs w with ⟨failure | _, after⟩
  · refine .inr ⟨?_, failure, after, rfl⟩
    rintro ⟨staged, stages⟩
    have succeeds : (b.stage layout program).on programs w = (.ok (), { w with files := staged }) :=
      stage_eq_ok.mpr ⟨staged, stages, rfl⟩
    rw [done] at succeeds
    cases succeeds
  · obtain ⟨staged, stages, rfl⟩ := stage_eq_ok.mp done
    exact .inl ⟨staged, stages, rfl⟩

private theorem on_stage_bind (rest : Action Outcome) :
    (do
      prepare layout
      if b.config.keepSources then writeSources layout program
      rest).on programs w =
        match (b.stage layout program).on programs w with
        | (.error failure, staged) => (.error failure, staged)
        | (.ok (), staged) => rest.on programs staged := by
  rw [stage, on_bind, on_bind]
  rcases (prepare layout).on programs w with ⟨_ | _, _⟩
  · rfl
  · dsimp only
    split
    · rw [on_bind]
      rcases (writeSources layout program).on programs _ with ⟨_ | _, _⟩ <;> rfl
    · rfl

/-- The files after the clean-up of a build. -/
def tidied (b : Builder) (layout : Layout) (files : FileTree) : FileTree :=
  (b.discarded layout).foldl (fun files directory => files.removeQuietly directory) files

private theorem on_removeQuietly (programs : Programs) (path : Path) (w : Workspace) :
    (Action.removeQuietly path).on programs w =
      (.ok (), { w with files := w.files.removeQuietly path }) := by
  have asked : (has path).on programs w = (.ok (w.files.has path), w) := rfl
  rw [Action.removeQuietly, on_bind, asked, FileTree.removeQuietly]
  dsimp only
  by_cases there : w.files.has path = true
  · rw [if_pos there, on_bind, on_ask]
    change (Except.ok (), (w.change (FileTree.removeDirectory path)).2) = _
    rw [Workspace.change]
    cases w.files.removeDirectory path <;> rfl
  · -- A path that names nothing cannot be removed.
    have absent : ∃ error, w.files.find path = .error error := by
      rw [FileTree.has] at there
      cases found : w.files.find path with
      | error error => exact ⟨error, rfl⟩
      | ok node =>
        rw [found] at there
        exact absurd rfl there
    obtain ⟨error, absent⟩ := absent
    rw [if_neg there, FileTree.removeDirectory, absent]
    rfl

/-- The clean-up removes what is not kept, and does not fail. -/
theorem on_cleanUp (b : Builder) (programs : Programs) (layout : Layout) (w : Workspace) :
    (b.cleanUp layout).on programs w = (.ok (), { w with files := b.tidied layout w.files }) := by
  rw [cleanUp, tidied, discarded]
  split
  · exact on_removeQuietly programs layout.root w
  · cases b.config.keepSources <;> cases b.config.keepClasses <;>
      simp [on_bind, on_removeQuietly, on_pure]

private theorem on_readText_of_ok {text : Text} (read : w.files.readText script = .ok text) :
    (Action.readText script).on programs w = (.ok text, w) := by
  rw [on_readText, read]
  rfl

/-- What the messages of a build are located with. -/
abbrev locatorFor (script : Path) (text : Text) (program : Program) : Locator :=
  ⟨script.fileName?.getD [], text, program.className⟩

/-- How a build goes on once a program was made of the script. -/
theorem on_buildInto {text : Text} (read : w.files.readText script = .ok text)
    (made : Program.ofScript text (script.fileName?.getD []) b.catalog = .ok program) :
    (b.buildInto script layout).on programs w =
      match (b.stage layout program).on programs w with
      | (.error failure, staged) => (.error failure, staged)
      | (.ok (), staged) =>
        let built :=
          (b.makeArtifact layout (locatorFor script text program) program).on programs staged
        let tidy := { built.2 with files := b.tidied layout built.2.files }
        match built.1 with
        | .error failure => (.error failure, tidy)
        | .ok true => (do
            Action.print (b.terminal.showSuccess layout.artifact)
            return .built layout.artifact : Action Outcome).on programs tidy
        | .ok false => (.ok .rejected, tidy) := by
  rw [buildInto, on_bind, on_readText_of_ok read]
  dsimp only
  rw [made]
  refine (on_stage_bind _).trans ?_
  rcases (b.stage layout program).on programs w with ⟨_ | _, staged⟩
  · rfl
  · dsimp only
    rw [on_bind, on_attempt]
    dsimp only
    rw [on_bind, on_cleanUp]
    rcases (b.makeArtifact layout (locatorFor script text program) program).on programs staged with
      ⟨_ | made, _⟩
    · rfl
    · cases made <;> rfl

/-- The files at the end of a build of which a program was made. -/
theorem files_buildInto {text : Text} (read : w.files.readText script = .ok text)
    (made : Program.ofScript text (script.fileName?.getD []) b.catalog = .ok program) :
    ((b.buildInto script layout).on programs w).2.files =
      match (b.stage layout program).on programs w with
      | (.error _, staged) => staged.files
      | (.ok (), staged) => b.tidied layout
          ((b.makeArtifact layout (locatorFor script text program) program).on programs
            staged).2.files := by
  rw [on_buildInto read made]
  rcases (b.stage layout program).on programs w with ⟨_ | _, staged⟩
  · rfl
  · dsimp only
    rcases (b.makeArtifact layout (locatorFor script text program) program).on programs staged with
      ⟨_ | made, _⟩
    · rfl
    · cases made <;> rfl

/-- A script of which no program is made is not built, and nothing is done but printing. -/
theorem buildInto_of_not_accepts (programs : Programs) (layout : Layout)
    (refused : ¬∃ program, b.Accepts script w.files program) :
    ∃ outcome output,
      (b.buildInto script layout).on programs w = (outcome, { w with output := output }) ∧
        ∀ artifact, outcome ≠ .ok (.built artifact) := by
  rw [buildInto, on_bind]
  cases read : w.files.readText script with
  | error error =>
    rw [on_readText, read]
    exact ⟨_, _, rfl, by simp⟩
  | ok text =>
    cases made : Program.ofScript text (script.fileName?.getD []) b.catalog with
    | error problems =>
      rw [on_readText_of_ok read]
      dsimp only
      rw [made]
      exact ⟨_, _, rfl, by simp⟩
    | ok program => exact absurd ⟨program, text, read, made⟩ refused

/-- A script that can be built is built into the layout of its class. -/
theorem on_build {className : Text} (accepted : script.scriptClass = .ok className) :
    (b.build script).on programs w =
      (b.buildInto script (b.layoutFor script className)).on programs w := by
  rw [build, on_bind, on_ofExcept, accepted]
  rfl

end Builder

end ScriptLoom
