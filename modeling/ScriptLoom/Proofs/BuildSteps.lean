import ScriptLoom.Proofs.BuildStages
import ScriptLoom.Proofs.FilePlaces

/-! # What the steps of a build keep

Between the preparation of its directory and the clean-up, a build makes directories, writes units
and lets the programs write. A predicate of the files that each of these steps keeps
(`Layout.Tolerates`) is kept by the stages that are made of them, whatever their outcome. Of the
programs nothing is known but what is assumed: that they write only where their calls let them
(`Programs.Framed`), or that they spare a place (`Programs.Spare`).
-/

namespace ScriptLoom

open Builder ScriptLoom.Action

/-! ### What programs may write -/

/-- The places where a call lets its program write: the compiler writes to the directory of the
classes, and the packager writes the artifact. -/
def Call.Target (tree : FileTree) : Call → Route → Prop
  | .compile _ classes, route => tree.place classes <+: route
  | .package artifact _ _, route => route = tree.place artifact

/-- Programs that write only where their calls let them and remove no directory, however they
end. -/
def Programs.Framed (programs : Programs) : Prop :=
  ∀ {log command call tree reply after}, programs.run log command call tree = .ok (reply, after) →
    tree.Writes (call.Target tree) after

/-- A call of a build with a layout. -/
def Call.Serves (layout : Layout) : Call → Prop
  | .compile _ classes => classes = layout.classes
  | .package artifact _ classes => artifact = layout.artifact ∧ classes = layout.classes

/-- The results of a build have the same places in two trees. -/
structure Layout.Stays (layout : Layout) (files tree : FileTree) : Prop where
  classes : tree.place layout.classes = files.place layout.classes
  artifact : tree.place layout.artifact = files.place layout.artifact

/-- The programs that a build runs leave a place alone and remove no directory, however they end. -/
def Programs.Spare (programs : Programs) (layout : Layout) (files : FileTree) (place : Route) :
    Prop :=
  ∀ {log command call tree reply after}, programs.run log command call tree = .ok (reply, after) →
    call.Serves layout → layout.Stays files tree → tree.Spares place after

/-- Where directories and files were written, the results of a build still have their places. -/
theorem Layout.Stays.trans {layout : Layout} {files tree after : FileTree} {inside : Route → Prop}
    (stays : layout.Stays files tree) (writes : tree.Writes inside after) :
    layout.Stays files after :=
  ⟨(writes.place_eq _).trans stays.classes, (writes.place_eq _).trans stays.artifact⟩

/-- Programs that write only where they may spare what is neither a class nor the artifact. -/
theorem Programs.Framed.spare {programs : Programs} (framed : programs.Framed) {layout : Layout}
    {files : FileTree} {place : Route} (noClass : ¬files.place layout.classes <+: place)
    (noArtifact : place ≠ files.place layout.artifact) : programs.Spare layout files place := by
  intro log command call tree reply after ran serves stays
  refine (framed ran).mono fun route target same => ?_
  subst same
  cases call with
  | compile source classes =>
    obtain rfl := serves
    rw [Call.Target, stays.classes] at target
    exact noClass target
  | package artifact mainClass classes =>
    obtain ⟨rfl, rfl⟩ := serves
    rw [Call.Target, stays.artifact] at target
    exact noArtifact target

/-- Programs that always succeed: the compiler writes a class and the packager the artifact. -/
def Programs.plain : Programs where
  run _ _ call tree :=
    let path : Path := match call with
      | .compile _ classes => classes.child "Main.class"
      | .package artifact _ _ => artifact
    (tree.write path (.text [])).map fun after => (⟨0, []⟩, after)

/-- Such programs write where they may. -/
theorem Programs.framed_plain : plain.Framed := by
  intro log command call tree reply after ran
  rw [plain] at ran
  dsimp only at ran
  obtain ⟨written, writes, same⟩ : ∃ written, _ = Except.ok written ∧ _ = (reply, after) := by
    rw [Except.map.eq_def] at ran
    split at ran
    · cases ran
    · next written writes => exact ⟨written, writes, Except.ok.inj ran⟩
  obtain ⟨rfl, rfl⟩ := Prod.mk.inj same
  refine .of_write writes fun route resolved => ?_
  obtain ⟨rfl, -⟩ := FileTree.eq_place_of_resolve resolved
  cases call with
  | compile source classes =>
    change tree.place classes <+: tree.place (classes.child "Main.class")
    rw [tree.place_child (by decide) (Path.isName_of_length (by decide))]
    exact List.prefix_append _ _
  | package artifact mainClass classes => exact rfl

/-! ### What the steps keep -/

/-- A predicate of file trees that the steps of a build of some units keep, removals apart. -/
structure Layout.Tolerates (layout : Layout) (programs : Programs) (units : List NamedSource)
    (property : FileTree → Prop) : Prop where
  made : ∀ {tree : FileTree} {route : Route}, property tree → tree.node? route = none →
    property (tree.insert route .directory)
  written : ∀ {tree after : FileTree} {unit : NamedSource}, unit ∈ units → property tree →
    tree.write (unitFile layout.sources unit.name) (.text (SourceUnit.endLine unit.source)) =
      .ok after → property after
  compiled : ∀ {log : List Exchange} {command : Path} {unit : NamedSource} {tree after : FileTree}
    {reply : Reply}, unit ∈ units → property tree →
      programs.run log command (compileCall layout unit) tree = .ok (reply, after) → property after
  packed : ∀ {log : List Exchange} {command : Path} {className : Text} {tree after : FileTree}
    {reply : Reply}, property tree →
      programs.run log command (.package layout.artifact className layout.classes) tree =
        .ok (reply, after) → property after
  marked : ∀ {tree after : FileTree}, property tree →
    tree.markExecutable layout.artifact = .ok after → property after

namespace Layout.Tolerates

variable {layout : Layout} {programs : Programs} {units : List NamedSource}
  {property : FileTree → Prop} {program : Program}

/-- Directories can be made. -/
theorem createDirectories (tolerates : layout.Tolerates programs units property) {tree : FileTree}
    (path : Path) (holds : property tree) : property (tree.createDirectories path).2 :=
  FileTree.makeNested_induction _ (fun _ _ holds _ free => tolerates.made holds free) _ holds

private theorem keeps_createDirectories (tolerates : layout.Tolerates programs units property)
    (path : Path) : Keeps programs (property ·.files) (Action.createDirectories path) :=
  .during (.makeDirectories fun _ => tolerates.createDirectories path)

private theorem writeUnit (tolerates : layout.Tolerates programs units property)
    {unit : NamedSource} (member : unit ∈ units) :
    Keeps programs (property ·.files) (writeUnit layout.sources unit) :=
  .write fun _ _ holds => tolerates.written member holds

private theorem writeUnits (tolerates : layout.Tolerates programs program.units property) :
    Keeps programs (property ·.files)
      (List.forM (program.mainUnit :: program.auxiliary) (Builder.writeUnit layout.sources)) := by
  refine .forM fun unit member => tolerates.writeUnit ?_
  rcases List.mem_cons.mp member with rfl | auxiliary
  · exact List.mem_append_right _ (List.mem_singleton_self _)
  · exact List.mem_append_left _ auxiliary

/-- The units of a program can be written. -/
theorem of_writeUnits (tolerates : layout.Tolerates programs program.units property)
    {made staged : FileTree}
    (writes : made.writeUnits layout.sources (program.mainUnit :: program.auxiliary) = .ok staged)
    (holds : property made) : property staged := by
  have ended : (List.forM (program.mainUnit :: program.auxiliary)
      (Builder.writeUnit layout.sources)).on programs (.ofFiles made) = (.ok (), .ofFiles staged) :=
    forM_writeUnit_eq_ok.mpr ⟨staged, writes, rfl⟩
  have kept := tolerates.writeUnits (.ofFiles made) holds
  rwa [ended] at kept

private theorem writeSources (tolerates : layout.Tolerates programs program.units property)
    {w : Workspace} (holds : property (w.files.createDirectories layout.sources).2) :
    property ((writeSources layout program).on programs w).2.files := by
  have created : property ((Action.makeDirectories layout.sources).on programs w).2.files := holds
  rw [Builder.writeSources, on_during]
  exact holds_bind (property ·.files) created fun _ => tolerates.writeUnits

private theorem compileUnit (tolerates : layout.Tolerates programs units property) (b : Builder)
    {unit : NamedSource} (member : unit ∈ units) {w : Workspace}
    (holds : property (w.files.createDirectories layout.sources).2) :
    property ((b.compileUnit layout unit).on programs w).2.files := by
  have created : property
      ((Action.createDirectories layout.sources).on programs w).2.files := by
    rw [Action.createDirectories, on_during]
    exact holds
  rw [Builder.compileUnit, on_during]
  refine holds_bind (property ·.files) created fun _ =>
    .bind (tolerates.keeps_createDirectories _) fun _ =>
      .bind (.during (tolerates.writeUnit member)) fun _ => .bind ?_ fun _ => .pure _
  exact .runProgram fun _ _ _ holds => tolerates.compiled member holds

private theorem compileUnits (tolerates : layout.Tolerates programs units property) (b : Builder)
    (locator : Locator) {rest : List NamedSource} (subset : rest ⊆ units) :
    Keeps programs (property ·.files) (b.compileUnits layout locator rest) := by
  induction rest with
  | nil => exact .pure _
  | cons unit rest ih =>
    obtain ⟨member, later⟩ := List.cons_subset.mp subset
    refine .bind (fun _ holds => tolerates.compileUnit b member
      (tolerates.createDirectories _ holds)) fun messages =>
        .bind (.forM fun _ _ => .print fun _ _ => id) fun _ => ?_
    split
    · exact .pure _
    · exact ih later

/-- The first of the units makes the directory of the sources. -/
private theorem compileUnits_of_created (tolerates : layout.Tolerates programs units property)
    (b : Builder) (locator : Locator) {rest : List NamedSource} (subset : rest ⊆ units)
    (some_ : rest ≠ []) {w : Workspace}
    (holds : property (w.files.createDirectories layout.sources).2) :
    property ((b.compileUnits layout locator rest).on programs w).2.files := by
  obtain ⟨unit, rest, rfl⟩ := List.exists_cons_of_ne_nil some_
  obtain ⟨member, later⟩ := List.cons_subset.mp subset
  refine holds_bind (property ·.files) (tolerates.compileUnit b member holds)
    fun messages => .bind (.forM fun _ _ => .print fun _ _ => id) fun _ => ?_
  split
  · exact .pure _
  · exact tolerates.compileUnits b locator later

private theorem package (tolerates : layout.Tolerates programs units property) (b : Builder)
    (className : Text) : Keeps programs (property ·.files) (b.package layout className) := by
  refine .bind (.runProgram fun _ _ _ holds => tolerates.packed holds) fun reply => ?_
  split
  · exact .bind (.during (.find _)) fun _ =>
      .during (.markExecutable fun _ _ holds => tolerates.marked holds)
  · exact .during (.throw _)

private theorem artifact (tolerates : layout.Tolerates programs program.units property)
    (b : Builder) (compiled : Bool) : Keeps programs (property ·.files) (do
      if compiled then b.package layout program.className
      return compiled) := by
  split
  · exact .bind (tolerates.package b program.className) fun _ => .pure _
  · exact .pure _

/-- The program can be compiled and packed. -/
theorem makeArtifact (tolerates : layout.Tolerates programs program.units property) (b : Builder)
    (locator : Locator) :
    Keeps programs (property ·.files) (b.makeArtifact layout locator program) :=
  .bind (tolerates.compileUnits b locator (List.Subset.refl _)) (tolerates.artifact b)

/-- Compiling starts with making the directory of the sources. -/
theorem makeArtifact_of_created (tolerates : layout.Tolerates programs program.units property)
    (b : Builder) (locator : Locator) {w : Workspace}
    (holds : property (w.files.createDirectories layout.sources).2) :
    property ((b.makeArtifact layout locator program).on programs w).2.files :=
  holds_bind (property ·.files) (tolerates.compileUnits_of_created b locator
    (List.Subset.refl _) (by simp [Program.units]) holds) (tolerates.artifact b)

variable {b : Builder} {w : Workspace}

/-- The preparation keeps what holds once the directory is cleared. -/
theorem stage (tolerates : layout.Tolerates programs program.units property) {cleared : FileTree}
    (clears : layout.clear w.files = .ok cleared) (holds : property cleared) :
    property ((b.stage layout program).on programs w).2.files := by
  have prepared : property ((prepare layout).on programs w).2.files := by
    rw [on_prepare, clears]
    exact tolerates.keeps_createDirectories _ _ holds
  rw [Builder.stage, on_bind]
  rcases done : (prepare layout).on programs w with ⟨_ | _, ready⟩ <;> rw [done] at prepared
  · exact prepared
  · dsimp only
    split
    · exact tolerates.writeSources (tolerates.createDirectories _ prepared)
    · exact prepared

/-- The preparation of a build that keeps its sources starts with making their directory. -/
theorem stage_of_created (tolerates : layout.Tolerates programs program.units property)
    {ready : FileTree} (prepares : layout.Prepares w.files ready)
    (keep : b.config.keepSources = true)
    (holds : property (ready.createDirectories layout.sources).2) :
    property ((b.stage layout program).on programs w).2.files := by
  have prepared : (prepare layout).on programs w = (.ok (), { w with files := ready }) :=
    prepare_eq_ok.mpr ⟨ready, prepares, rfl⟩
  rw [Builder.stage, on_bind, prepared]
  dsimp only
  rw [if_pos keep]
  exact tolerates.writeSources holds

end Layout.Tolerates

/-- The files at the end of a build of which a program was made: they are those of the beginning if
the build directory cannot be cleared, and else those that the steps of the build lead to, cleaned
up or not. -/
theorem Builder.buildInto_cases {b : Builder} {script : Path} {w : Workspace} {program : Program}
    (programs : Programs) (layout : Layout) (accepts : b.Accepts script w.files program) :
    ((∃ error, layout.clear w.files = .error error) ∧
      ((b.buildInto script layout).on programs w).2.files = w.files) ∨
    ∃ cleared ending, layout.clear w.files = .ok cleared ∧
      (∀ property, layout.Tolerates programs program.units property → property cleared →
        property ending) ∧
      (((b.buildInto script layout).on programs w).2.files = ending ∨
        ((b.buildInto script layout).on programs w).2.files = b.tidied layout ending) := by
  obtain ⟨text, read, made⟩ := accepts
  rw [files_buildInto read made]
  cases clears : layout.clear w.files with
  | error error =>
    refine .inl ⟨⟨error, rfl⟩, ?_⟩
    rw [stage, on_bind, on_prepare, clears]
  | ok cleared =>
    refine .inr ⟨cleared, ?_⟩
    have staged : ∀ property, layout.Tolerates programs program.units property →
        property cleared → property ((b.stage layout program).on programs w).2.files :=
      fun property tolerates => tolerates.stage clears
    generalize (b.stage layout program).on programs w = result at staged
    rcases result with ⟨_ | _, ready⟩
    · exact ⟨ready.files, rfl, staged, .inl rfl⟩
    · exact ⟨_, rfl, fun property tolerates holds =>
        tolerates.makeArtifact b _ _ (staged property tolerates holds), .inr rfl⟩

end ScriptLoom
