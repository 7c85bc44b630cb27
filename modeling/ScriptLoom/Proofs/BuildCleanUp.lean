import ScriptLoom.Proofs.ProgramUnits

/-! # What a build leaves behind

A build writes into its own directory and writes its artifact beside it. If the programs that it
runs write only where they may, nothing else changes but that directories are made on the way
(`FileTree.Confined`). In the end nothing is left of the directory if nothing is to be kept, and
else exactly the kept parts: the sources, one file for each unit (`FileTree.HoldsUnits`), and the
classes. The classes stay too if the sources cannot be written, since the build then stops without a
clean-up (`Builder.Leaves`).
-/

namespace ScriptLoom

namespace FileTree

variable {tree after files : FileTree} {root artifact route place : Route}

/-! ### The frame -/

/-- Files that differ from others at most at one place, below another one, and by directories where
nothing stood. -/
def Confined (root artifact : Route) (files after : FileTree) : Prop :=
  ∀ place : Route, place.Named → ¬root <+: place → place ≠ artifact →
    after.node? place = files.node? place ∨
      files.node? place = none ∧ after.node? place = some .directory

namespace Confined

/-- Files do not differ from themselves. -/
theorem refl (root artifact : Route) (files : FileTree) : Confined root artifact files files :=
  fun _ _ _ _ => .inl rfl

private theorem of_writes {inside : Route → Prop} (confined : Confined root artifact files tree)
    (writes : tree.Writes inside after)
    (within : ∀ route, inside route → root <+: route ∨ route = artifact) :
    Confined root artifact files after := by
  intro place named outside other
  rw [writes.outside place fun member => (within place member).elim outside other]
  exact confined place named outside other

private theorem made (confined : Confined root artifact files tree)
    (free : tree.node? route = none) :
    Confined root artifact files (tree.insert route .directory) := by
  intro place named outside other
  have kept := confined place named outside other
  by_cases same : place = route
  · subst same
    refine .inr ⟨?_, node?_insert_self tree _ (not_isPrefix_here free (by simp))⟩
    rcases kept with same | ⟨old, -⟩
    · exact same.symm.trans free
    · exact old
  · rwa [node?_insert_of_ne tree _ same]

private theorem removeDirectory (confined : Confined root artifact files tree) {path base : Path}
    (isIn : path.IsIn base) (inside : root <+: tree.place path)
    (removed : tree.removeDirectory path = .ok after) : Confined root artifact files after := by
  intro place named outside other
  rw [(node?_of_removeDirectory isIn removed place).2 named
    fun covers => outside (inside.trans covers)]
  exact confined place named outside other

private theorem removeQuietly (confined : Confined root artifact files tree) {path base : Path}
    (isIn : path.IsIn base) (inside : root <+: tree.place path) :
    Confined root artifact files (tree.removeQuietly path) := by
  rw [FileTree.removeQuietly]
  cases removed : tree.removeDirectory path with
  | error error => exact confined
  | ok after => exact confined.removeDirectory isIn inside removed

end Confined

/-! ### The files of a directory -/

/-- The files in a directory are the sources of some units, right in it and not executable. -/
def HoldsUnits (tree : FileTree) (place : Route) (units : List NamedSource) : Prop :=
  ∀ rest : Route, rest.Named → ∀ content executable,
    tree.node? (place ++ rest) = some (.file content executable) ↔
      ∃ unit ∈ units, rest = [unit.name ++ ".java"] ∧
        content = .text (SourceUnit.endLine unit.source) ∧ executable = false

variable {units : List NamedSource}

private theorem holdsUnits_nil :
    tree.HoldsUnits place [] ↔
      ∀ rest : Route, rest.Named → ∀ content executable,
        tree.node? (place ++ rest) ≠ some (.file content executable) := by
  simp [HoldsUnits]

namespace HoldsUnits

private theorem of_mem {others : List NamedSource} (holds : tree.HoldsUnits place units)
    (same : ∀ unit, unit ∈ others ↔ unit ∈ units) : tree.HoldsUnits place others := by
  intro rest routed content executable
  rw [holds rest routed content executable]
  simp only [same]

private theorem made (holds : tree.HoldsUnits place units) (free : tree.node? route = none) :
    (tree.insert route .directory).HoldsUnits place units := by
  intro rest routed content executable
  rw [← holds rest routed content executable]
  by_cases same : place ++ rest = route
  · rw [same, free, node?_insert_self tree _ (not_isPrefix_here free (by simp))]
    simp
  · rw [node?_insert_of_ne tree _ same]

private theorem createDirectories (holds : tree.HoldsUnits place units) (path : Path) :
    (tree.createDirectories path).2.HoldsUnits place units :=
  makeNested_induction (HoldsUnits · place units)
    (fun _ _ holds _ free => holds.made free) _ holds

private theorem of_writes {inside : Route → Prop} (holds : tree.HoldsUnits place units)
    (writes : tree.Writes inside after) (outside : ∀ route, inside route → ¬place <+: route) :
    after.HoldsUnits place units := by
  intro rest routed content executable
  rw [writes.outside _ fun member => outside _ member (List.prefix_append _ _)]
  exact holds rest routed content executable

/-- The file of a unit joins those that are there, or takes the place of itself. -/
private theorem insert (holds : tree.HoldsUnits place units) {unit : NamedSource}
    (only : ∀ other ∈ units, other.name = unit.name → other = unit) {executable : Bool}
    (receives : tree.Receives (place ++ [unit.name ++ ".java"]) executable) :
    (tree.insert (place ++ [unit.name ++ ".java"])
      (.file (.text (SourceUnit.endLine unit.source)) executable)).HoldsUnits place
        (unit :: units) := by
  have plain : executable = false := by
    rcases receives with ⟨-, plain⟩ | ⟨old, there⟩
    · exact plain
    · obtain ⟨_, -, -, -, plain⟩ := (holds _ (by simp [Route.Named]) _ _).mp there
      exact plain
  have off := not_isPrefix_here rfl receives.ne_directory
  intro rest routed content executable'
  by_cases here : rest = [unit.name ++ ".java"]
  · rw [here, node?_insert_self tree _ off]
    constructor
    · intro same
      cases same
      exact ⟨unit, List.mem_cons_self, rfl, rfl, plain⟩
    · rintro ⟨other, member, sameName, rfl, rfl⟩
      have name : other.name = unit.name :=
        List.append_cancel_right (List.singleton_inj.mp sameName).symm
      have same : other = unit := by
        rcases List.mem_cons.mp member with rfl | listed
        · rfl
        · exact only other listed name
      rw [same, plain]
  · have differ : place ++ rest ≠ place ++ [unit.name ++ ".java"] :=
      fun same => here (List.append_cancel_left same)
    rw [node?_insert_of_ne tree _ differ, holds rest routed content executable']
    constructor
    · rintro ⟨other, member, rest⟩
      exact ⟨other, List.mem_cons_of_mem _ member, rest⟩
    · rintro ⟨other, member, sameName, rest⟩
      rcases List.mem_cons.mp member with rfl | listed
      · exact absurd sameName here
      · exact ⟨other, listed, sameName, rest⟩

end HoldsUnits

/-- The source of a unit is written right into the directory of the sources. -/
private theorem exists_of_write {program : Program} (named : program.WellNamed)
    {unit : NamedSource} (member : unit ∈ program.units) {directory : Path} {content : Content}
    (written : tree.write (Builder.unitFile directory unit.name) content = .ok after) :
    ∃ executable, tree.Receives (tree.place directory ++ [unit.name ++ ".java"]) executable ∧
      after = tree.insert (tree.place directory ++ [unit.name ++ ".java"])
        (.file content executable) := by
  obtain ⟨route, executable, resolved, receives, rfl⟩ := write_eq_ok.mp written
  have inPart : '/' ∉ unit.name ++ ".java" := by
    simpa using named.inPart unit member
  obtain ⟨rfl, -⟩ := eq_place_of_resolve resolved
  rw [Builder.unitFile, tree.place_child inPart (Path.isName_of_length (by simp))] at receives ⊢
  exact ⟨executable, receives, rfl⟩

end FileTree

/-! ### Where a build writes -/

namespace Layout.Nested

open Builder

variable {layout : Layout} {base : Path} (nested : layout.Nested base) {program : Program}
  {programs : Programs}

include nested

/-- The place of the sources in that of the build. -/
theorem place_sources (tree : FileTree) :
    tree.place layout.sources = tree.place layout.root ++ [("gen" : Text)] := by
  rw [nested.sources, tree.place_child (by decide) (by constructor <;> decide)]

/-- The place of the classes in that of the build. -/
theorem place_classes (tree : FileTree) :
    tree.place layout.classes = tree.place layout.root ++ [("class" : Text)] := by
  rw [nested.classes, tree.place_child (by decide) (by constructor <;> decide)]

private theorem root_isPrefix_sources (tree : FileTree) :
    tree.place layout.root <+: tree.place layout.sources := by
  rw [nested.place_sources]
  exact List.prefix_append _ _

private theorem root_isPrefix_classes (tree : FileTree) :
    tree.place layout.root <+: tree.place layout.classes := by
  rw [nested.place_classes]
  exact List.prefix_append _ _

/-- No place is in the directories of the sources and of the classes. -/
private theorem sources_apart_classes (tree : FileTree) {place : Route}
    (inSources : tree.place layout.sources <+: place) : ¬tree.place layout.classes <+: place := by
  rw [nested.place_sources] at inSources
  rw [nested.place_classes]
  intro inClasses
  have same := List.append_cancel_left
    ((List.prefix_of_prefix_length_le inSources inClasses (by simp)).eq_of_length (by simp))
  revert same
  decide

private theorem sources_apart_artifact (tree : FileTree) :
    ¬tree.place layout.sources <+: tree.place layout.artifact := by
  obtain ⟨rootName, -, root⟩ := tree.exists_place_eq nested.root
  obtain ⟨name, -, artifact⟩ := tree.exists_place_eq nested.artifact
  intro inside
  have longer := inside.length_le
  rw [nested.place_sources, root, artifact] at longer
  simp at longer

omit nested in
/-- A predicate of file trees is tolerated by a build whose programs write only where they may, if
it is kept when a directory is made, when the source of a unit is put at its place, and when
something is written among the classes or at the artifact. -/
private theorem tolerates (framed : programs.Framed) (named : program.WellNamed)
    (start : FileTree) {property : FileTree → Prop}
    (made : ∀ {tree : FileTree} {route : Route}, property tree → tree.node? route = none →
      property (tree.insert route .directory))
    (source : ∀ {tree : FileTree} {unit : NamedSource} {executable : Bool},
      unit ∈ program.units → property tree →
      tree.Receives (start.place layout.sources ++ [unit.name ++ ".java"]) executable →
      property (tree.insert (start.place layout.sources ++ [unit.name ++ ".java"])
        (.file (.text (SourceUnit.endLine unit.source)) executable)))
    (output : ∀ {tree after : FileTree}, property tree →
      tree.Writes (fun route => start.place layout.classes <+: route ∨
        route = start.place layout.artifact) after → property after) :
    layout.Tolerates programs program.units
      (fun tree => tree.here = start.here ∧ property tree) where
  made holds free := ⟨holds.1, made holds.2 free⟩
  written {tree after unit} member holds written := by
    obtain ⟨executable, receives, rfl⟩ := FileTree.exists_of_write named member written
    rw [FileTree.place_eq_of_here holds.1] at receives ⊢
    exact ⟨holds.1, source member holds.2 receives⟩
  compiled {log command unit tree after reply} _ holds ran := by
    have writes := framed ran
    refine ⟨writes.here.trans holds.1, output holds.2 (writes.mono fun route target => .inl ?_)⟩
    rwa [compileCall, Call.Target, FileTree.place_eq_of_here holds.1] at target
  packed {log command className tree after reply} holds ran := by
    have writes := framed ran
    refine ⟨writes.here.trans holds.1, output holds.2 (writes.mono fun route target => .inr ?_)⟩
    rwa [Call.Target, FileTree.place_eq_of_here holds.1] at target
  marked {tree after} holds marked := by
    have writes : tree.Writes (· = start.place layout.artifact) after :=
      .of_markExecutable marked fun route resolved => by
        rw [← FileTree.place_eq_of_here holds.1]
        exact (FileTree.eq_place_of_resolve resolved).1
    exact ⟨writes.here.trans holds.1, output holds.2 (writes.mono fun _ => .inr)⟩

private theorem tolerates_confined (framed : programs.Framed) (named : program.WellNamed)
    (start files : FileTree) :
    layout.Tolerates programs program.units (fun tree => tree.here = start.here ∧
      FileTree.Confined (start.place layout.root) (start.place layout.artifact) files tree) := by
  refine tolerates framed named start (fun confined free => confined.made free) ?_ ?_
  · intro tree unit executable _ confined receives
    refine confined.of_writes (.of_insert rfl receives.ne_directory) fun route same => .inl ?_
    rw [← same]
    exact (nested.root_isPrefix_sources start).trans (List.prefix_append _ _)
  · intro tree after confined writes
    exact confined.of_writes writes fun route member =>
      member.imp_left (nested.root_isPrefix_classes start).trans

omit nested in
/-- No directory is lost while a build is under way. -/
private theorem tolerates_writes (framed : programs.Framed) (named : program.WellNamed)
    (start : FileTree) :
    layout.Tolerates programs program.units (fun tree => tree.here = start.here ∧
      start.Writes (fun _ => True) tree) := by
  refine tolerates framed named start
    (fun writes free => writes.trans (.of_insert trivial (by simp [free]))) ?_ ?_
  · intro tree unit executable _ writes receives
    exact writes.trans (.of_insert trivial receives.ne_directory)
  · intro tree after writes more
    exact writes.trans (more.mono fun _ _ => trivial)

private theorem tolerates_holdsUnits (framed : programs.Framed) (named : program.WellNamed)
    (start : FileTree) :
    layout.Tolerates programs program.units (fun tree => tree.here = start.here ∧
      tree.HoldsUnits (start.place layout.sources) program.units) := by
  refine tolerates framed named start (fun holds free => holds.made free) ?_ ?_
  · intro tree unit executable member holds receives
    refine (holds.insert (fun other listed => named.eq_of_name listed member) receives).of_mem ?_
    intro other
    rw [List.mem_cons]
    exact ⟨.inr, fun listed => listed.elim (· ▸ member) id⟩
  · intro tree after holds writes
    refine holds.of_writes writes ?_
    rintro route (inClasses | rfl) inSources
    · exact nested.sources_apart_classes start inSources inClasses
    · exact nested.sources_apart_artifact start inSources

end Layout.Nested

/-! ### What is left -/

/-- Directories can be made and removed where a build wants to: an old build directory gives way,
and those of the classes and of the sources can be made. -/
def Layout.Opens (layout : Layout) (files made : FileTree) : Prop :=
  ∃ ready, layout.Prepares files ready ∧
    ready.createDirectories layout.sources = (.ok (), made)

/-- No file of an earlier build is in the way of the sources: the old build directory is found and
thus removed, or it has none. -/
def Layout.Fresh (layout : Layout) (files : FileTree) : Prop :=
  files.has layout.root = true ∨ files.HoldsUnits (files.place layout.sources) []

/-- What is left of the directory of a build. -/
structure Builder.Leaves (b : Builder) (layout : Layout) (program : Program)
    (files after : FileTree) : Prop where
  nothing : b.config.keepsOutput = false →
    ∀ place, files.place layout.root <+: place → after.node? place = none
  sources : b.config.keepSources = true →
    after.node? (files.place layout.sources) = some .directory
  noSources : b.config.keepSources = false →
    ∀ place, files.place layout.sources <+: place → after.node? place = none
  classes : b.config.keepClasses = true →
    after.node? (files.place layout.classes) = some .directory
  noClasses : b.config.keepClasses = false → (∃ staged, b.Stages layout program files staged) →
    ∀ place, files.place layout.classes <+: place → after.node? place = none
  /-- A build whose sources cannot be written does not clean up. -/
  unstaged : (¬∃ staged, b.Stages layout program files staged) →
    b.config.keepSources = true ∧ after.node? (files.place layout.classes) = some .directory
  units : b.config.keepSources = true → (∃ staged, b.Stages layout program files staged) →
    layout.Fresh files → after.HoldsUnits (files.place layout.sources) program.units

namespace Layout.Nested

open Builder ScriptLoom.Action

variable {layout : Layout} {base : Path} (nested : layout.Nested base) {program : Program}
  {b : Builder} {files made : FileTree}

include nested

/-- The directories of a build are made where they are to be. -/
private theorem place_opens (opens : layout.Opens files made) :
    made.place base = files.place base := by
  obtain ⟨ready, ⟨cleared, clears, makes⟩, creates⟩ := opens
  have first := (FileTree.writes_createDirectories layout.classes cleared).place_eq base
  have second := (FileTree.writes_createDirectories layout.sources ready).place_eq base
  rw [makes] at first
  rw [creates] at second
  exact second.trans (first.trans (nested.place_clear clears))

private theorem fresh_made (fresh : layout.Fresh files) (opens : layout.Opens files made) :
    made.HoldsUnits (files.place layout.sources) [] := by
  obtain ⟨ready, ⟨cleared, clears, makes⟩, creates⟩ := opens
  have empty : cleared.HoldsUnits (files.place layout.sources) [] := by
    rw [Layout.clear] at clears
    split at clears
    · rw [FileTree.holdsUnits_nil]
      intro rest _ content executable
      have inside : files.place layout.root <+: files.place layout.sources ++ rest :=
        (nested.root_isPrefix_sources files).trans (List.prefix_append _ _)
      simp [(FileTree.node?_of_removeDirectory nested.root clears _).1 inside]
    · next absent =>
      cases clears
      exact fresh.resolve_left absent
  have later := (empty.createDirectories layout.classes).createDirectories layout.sources
  rwa [makes, creates] at later

omit nested in
/-- Writing units into a directory adds their files. -/
private theorem holdsUnits_of_writeUnits (named : program.WellNamed) {directory : Path}
    {place : Route} {units before : List NamedSource} (subset : units ⊆ program.units)
    (subset' : before ⊆ program.units) {tree after : FileTree}
    (writes : tree.writeUnits directory units = .ok after) (located : tree.place directory = place)
    (holds : tree.HoldsUnits place before) :
    after.HoldsUnits place (units.reverse ++ before) := by
  induction units generalizing tree before with
  | nil =>
    cases writes
    exact holds
  | cons unit units ih =>
    obtain ⟨member, later⟩ := List.cons_subset.mp subset
    rw [FileTree.writeUnits, List.foldlM_cons] at writes
    obtain ⟨middle, written, writes⟩ := exists_of_bind_eq_ok writes
    obtain ⟨executable, receives, rfl⟩ := FileTree.exists_of_write named member written
    rw [located] at receives writes
    have joined := holds.insert
      (fun other listed => named.eq_of_name (subset' listed) member) receives
    rw [List.reverse_cons, List.append_assoc, List.singleton_append]
    exact ih later (List.cons_subset.mpr ⟨member, subset'⟩) writes located joined

private theorem holdsUnits_of_stages (named : program.WellNamed) (fresh : layout.Fresh files)
    (opens : layout.Opens files made) {staged : FileTree}
    (stages : b.Stages layout program files staged) (keep : b.config.keepSources = true) :
    staged.HoldsUnits (files.place layout.sources) program.units := by
  have empty := nested.fresh_made fresh opens
  have place_eq : made.place layout.sources = files.place layout.sources :=
    FileTree.place_eq_of_isIn nested.sources_isIn
      (FileTree.place_eq_of_isIn nested.root (nested.place_opens opens))
  obtain ⟨ready, ⟨cleared, clears, makes⟩, creates⟩ := opens
  obtain ⟨ready', ⟨cleared', clears', makes'⟩, rest⟩ := stages
  cases clears.symm.trans clears'
  cases makes.symm.trans makes'
  rw [if_pos keep] at rest
  obtain ⟨made', creates', writes⟩ := rest
  cases creates.symm.trans creates'
  have member : ∀ unit, unit ∈ program.mainUnit :: program.auxiliary ↔ unit ∈ program.units := by
    simp [Program.units, or_comm]
  refine (holdsUnits_of_writeUnits named (fun unit => (member unit).mp) (List.nil_subset _) writes
    place_eq empty).of_mem fun unit => ?_
  rw [List.append_nil, List.mem_reverse, member]

end Layout.Nested

namespace Builder

open ScriptLoom.Action

variable {b : Builder} {programs : Programs} {script base : Path} {layout : Layout}
  {program : Program} {w : Workspace} {made : FileTree}

/-- The files when a build that could make its directories ends: they are those that its steps lead
to from there, cleaned up unless the sources could not be written. -/
private theorem exists_ending (programs : Programs) (opens : layout.Opens w.files made)
    (accepts : b.Accepts script w.files program) :
    ∃ ending, (∀ property, layout.Tolerates programs program.units property → property made →
        property ending) ∧
      ((∃ staged, b.Stages layout program w.files staged ∧
          (∀ property, layout.Tolerates programs program.units property → property staged →
            property ending) ∧
          ((b.buildInto script layout).on programs w).2.files = b.tidied layout ending) ∨
        (¬∃ staged, b.Stages layout program w.files staged) ∧ b.config.keepSources = true ∧
          ((b.buildInto script layout).on programs w).2.files = ending) := by
  obtain ⟨ready, prepares, creates⟩ := opens
  obtain ⟨text, read, accepted⟩ := accepts
  have created : (ready.createDirectories layout.sources).2 = made := by rw [creates]
  rw [files_buildInto read accepted]
  rcases stage_cases b programs layout program w with
    ⟨staged, stages, done⟩ | ⟨unstaged, failure, after, done⟩
  · rw [done]
    refine ⟨_, fun property tolerates holds => ?_, .inl ⟨staged, stages,
      fun property tolerates holds => tolerates.makeArtifact b _ _ holds, rfl⟩⟩
    obtain ⟨ready', ⟨cleared', clears', makes'⟩, rest⟩ := stages
    obtain ⟨cleared, clears, makes⟩ := prepares
    cases clears.symm.trans clears'
    cases makes.symm.trans makes'
    split at rest
    · obtain ⟨made', creates', writes⟩ := rest
      cases creates.symm.trans creates'
      exact tolerates.makeArtifact b _ _ (tolerates.of_writeUnits writes holds)
    · subst rest
      exact tolerates.makeArtifact_of_created b _ (created ▸ holds)
  · have keep : b.config.keepSources = true := by
      by_contra discards
      exact unstaged ⟨ready, ready, prepares, by rw [if_neg discards]⟩
    have after_eq : ((b.stage layout program).on programs w).2.files = after.files := by rw [done]
    rw [done]
    refine ⟨after.files, fun property tolerates holds => ?_, .inr ⟨unstaged, keep, rfl⟩⟩
    rw [← after_eq]
    exact tolerates.stage_of_created prepares keep (created ▸ holds)

private theorem confined_tidied (nested : layout.Nested base)
    (known : layout.temporary = !b.config.keepsOutput) {files tree : FileTree} {artifact : Route}
    (confined : FileTree.Confined (tree.place layout.root) artifact files tree) :
    FileTree.Confined (tree.place layout.root) artifact files (b.tidied layout tree) := by
  rw [tidied]
  rcases discarded_eq known with none | ⟨directory, one⟩
  · rw [none]
    exact confined
  · have member : directory ∈ b.discarded layout := by simp [one]
    obtain ⟨above, isIn, -⟩ := nested.isIn_of_mem member
    rw [one]
    exact confined.removeQuietly isIn (nested.root_isPrefix tree member)

/-- A build changes nothing but its directory and its artifact, whatever happens. -/
theorem confined_buildInto (nested : layout.Nested base)
    (known : layout.temporary = !b.config.keepsOutput) (framed : programs.Framed)
    (named : program.WellNamed) (accepts : b.Accepts script w.files program) :
    FileTree.Confined (w.files.place layout.root) (w.files.place layout.artifact) w.files
      ((b.buildInto script layout).on programs w).2.files := by
  rcases buildInto_cases programs layout accepts with
    ⟨-, same⟩ | ⟨cleared, ending, clears, reached, ended⟩
  · rw [same]
    exact .refl _ _ _
  · have settled := nested.place_clear clears
    have root_eq := FileTree.place_eq_of_isIn nested.root settled
    have first : FileTree.Confined (cleared.place layout.root) (cleared.place layout.artifact)
        w.files cleared := by
      rw [root_eq]
      rw [Layout.clear] at clears
      split at clears
      · exact (FileTree.Confined.refl _ _ _).removeDirectory nested.root List.prefix_rfl clears
      · cases clears
        exact .refl _ _ _
    obtain ⟨here, confined⟩ := reached _
      (nested.tolerates_confined framed named cleared w.files) ⟨rfl, first⟩
    rw [← root_eq, ← (nested.stays settled).artifact]
    rcases ended with ended | ended <;> rw [ended]
    · exact confined
    · rw [← FileTree.place_eq_of_here here layout.root] at confined ⊢
      exact confined_tidied nested known confined

/-- The directories of a build are there when its steps are done. -/
private theorem find_ending (nested : layout.Nested base) (opens : layout.Opens w.files made)
    {ending : FileTree} (writes : made.Writes (fun _ => True) ending) :
    ending.find layout.root = .ok (ending.place layout.root, .directory) ∧
      ending.find layout.sources = .ok (ending.place layout.sources, .directory) ∧
        ending.find layout.classes = .ok (ending.place layout.classes, .directory) := by
  obtain ⟨ready, ⟨cleared, clears, makes⟩, creates⟩ := opens
  have first : ready.Writes (fun _ => True) made := by
    have created := FileTree.writes_createDirectories layout.sources ready
    rw [creates] at created
    exact created.mono fun _ _ => trivial
  obtain ⟨classes, root⟩ := find_classes nested makes (first.trans writes)
  obtain ⟨resolved, there⟩ := FileTree.find_eq_ok.mp
    (FileTree.find_of_createDirectories nested.sources_isIn creates)
  refine ⟨root, FileTree.find_eq_ok.mpr ⟨?_, ?_⟩, classes⟩
  · rw [writes.place_eq]
    exact writes.resolve_eq_ok resolved
  · rw [writes.place_eq]
    exact writes.directories _ there

/-- What is kept is left as it is. -/
private theorem node?_tidied_of_kept (nested : layout.Nested base)
    (known : layout.temporary = !b.config.keepsOutput) {tree : FileTree} {place : Route}
    (routed : place.Named)
    (kept : b.config.keepSources = true ∧ tree.place layout.sources <+: place ∨
      b.config.keepClasses = true ∧ tree.place layout.classes <+: place) :
    (b.tidied layout tree).node? place = tree.node? place := by
  have keeps : layout.temporary = false := by
    rw [known, Config.keepsOutput]
    rcases kept with ⟨keep, -⟩ | ⟨keep, -⟩ <;> simp [keep]
  refine node?_tidied nested known routed ?_
  rintro ⟨directory, member, covers⟩
  rcases mem_discarded_iff.mp member with ⟨temporary, -⟩ | ⟨-, drop, rfl⟩ | ⟨-, drop, rfl⟩
  · simp [keeps] at temporary
  · rcases kept with ⟨keep, -⟩ | ⟨-, inClasses⟩
    · simp [keep] at drop
    · exact nested.sources_apart_classes tree covers inClasses
  · rcases kept with ⟨-, inSources⟩ | ⟨keep, -⟩
    · exact nested.sources_apart_classes tree inSources covers
    · simp [keep] at drop

private theorem leaves_buildInto (nested : layout.Nested base)
    (known : layout.temporary = !b.config.keepsOutput) (framed : programs.Framed)
    (named : program.WellNamed) (accepts : b.Accepts script w.files program)
    (opens : layout.Opens w.files made) :
    b.Leaves layout program w.files ((b.buildInto script layout).on programs w).2.files := by
  obtain ⟨ending, reached, ended⟩ := exists_ending programs opens accepts
  have writes := (reached _ (Layout.Nested.tolerates_writes framed named made) ⟨rfl, .refl _ _⟩).2
  obtain ⟨root, sources, classes⟩ := find_ending nested opens writes
  have settled : ending.place base = w.files.place base :=
    (writes.place_eq base).trans (nested.place_opens opens)
  have rootPlace := FileTree.place_eq_of_isIn nested.root settled
  have sourcesPlace := FileTree.place_eq_of_isIn nested.sources_isIn rootPlace
  have classesPlace := FileTree.place_eq_of_isIn nested.classes_isIn rootPlace
  have sourcesThere := (FileTree.find_eq_ok.mp sources).2
  have classesThere := (FileTree.find_eq_ok.mp classes).2
  have sourcesNamed := (FileTree.named_of_resolve nested.sources_isIn
    (FileTree.find_eq_ok.mp sources).1).1
  have classesNamed := (FileTree.named_of_resolve nested.classes_isIn
    (FileTree.find_eq_ok.mp classes).1).1
  rcases ended with ⟨staged, stages, later, ended⟩ | ⟨unstaged, keep, ended⟩ <;> rw [ended]
  · have gone : ∀ directory ∈ b.discarded layout, ∀ place, ending.place directory <+: place →
        (b.tidied layout ending).node? place = none := by
      intro directory member place inside
      refine node?_tidied_of_isPrefix nested known member inside ?_
      rcases mem_discarded_iff.mp member with ⟨-, rfl⟩ | ⟨-, -, rfl⟩ | ⟨-, -, rfl⟩
      · exact root
      · exact sources
      · exact classes
    have rootGone : b.config.keepsOutput = false → layout.root ∈ b.discarded layout := fun none =>
      mem_discarded_iff.mpr (.inl ⟨by simp [known, none], rfl⟩)
    refine ⟨fun none => ?_, fun keep => ?_, fun drop place inside => ?_, fun keep => ?_,
      fun drop _ place inside => ?_, fun unstaged => absurd ⟨staged, stages⟩ unstaged,
      fun keep _ fresh rest routed content executable => ?_⟩
    · rw [← rootPlace]
      exact gone _ (rootGone none)
    · rw [← sourcesPlace, node?_tidied_of_kept nested known sourcesNamed
        (.inl ⟨keep, List.prefix_rfl⟩), sourcesThere]
    · rw [← sourcesPlace] at inside
      cases keeps : b.config.keepsOutput with
      | false =>
        exact gone _ (rootGone keeps) place ((nested.root_isPrefix_sources _).trans inside)
      | true =>
        exact gone _ (mem_discarded_iff.mpr (.inr (.inl ⟨by simp [known, keeps], drop, rfl⟩))) place
          inside
    · rw [← classesPlace, node?_tidied_of_kept nested known classesNamed
        (.inr ⟨keep, List.prefix_rfl⟩), classesThere]
    · rw [← classesPlace] at inside
      cases keeps : b.config.keepsOutput with
      | false =>
        exact gone _ (rootGone keeps) place ((nested.root_isPrefix_classes _).trans inside)
      | true =>
        exact gone _ (mem_discarded_iff.mpr (.inr (.inr ⟨by simp [known, keeps], drop, rfl⟩))) place
          inside
    · -- The units are there since the preparation.
      have here := (later _ (Layout.Nested.tolerates_writes framed named staged)
        ⟨rfl, .refl _ _⟩).1
      have filled := nested.holdsUnits_of_stages named fresh opens stages keep
      rw [← sourcesPlace, FileTree.place_eq_of_here here] at filled
      have holds := (later _ (nested.tolerates_holdsUnits framed named staged) ⟨rfl, filled⟩).2
      rw [← FileTree.place_eq_of_here here] at holds
      rw [← sourcesPlace, node?_tidied_of_kept nested known
        (Route.named_append.mpr ⟨sourcesNamed, routed⟩) (.inl ⟨keep, List.prefix_append _ _⟩)]
      exact holds rest routed content executable
  · -- The sources were to be kept, and could not be written.
    have noLoss : ∀ {p : Prop}, (∃ staged, b.Stages layout program w.files staged) → p :=
      fun stages => absurd stages unstaged
    rw [sourcesPlace] at sourcesThere
    rw [classesPlace] at classesThere
    refine ⟨fun none => ?_, fun _ => sourcesThere, fun drop => ?_, fun _ => classesThere,
      fun _ => noLoss, fun _ => ⟨keep, classesThere⟩, fun _ => noLoss⟩
    · simp [Config.keepsOutput, keep] at none
    · simp [keep] at drop

/-- **What a build leaves behind.** If no program is made of a script, the files stay as they are
and nothing is run. Otherwise, if the programs write only where they may, only the directory of the
build and its artifact change, whatever happens; and where directories can be made, the build leaves
of its directory what is to be kept, the sources of all units and nothing else among them, but that
it also leaves the classes if the sources cannot be written. -/
theorem build_leaves (b : Builder) (script : Path) (w : Workspace) {programs : Programs}
    (framed : programs.Framed) :
    ((∀ className program, script.scriptClass = .ok className →
        ¬b.Accepts script w.files program) →
      ((b.build script).on programs w).2.files = w.files ∧
        ((b.build script).on programs w).2.log = w.log) ∧
    ∀ className program, script.scriptClass = .ok className → b.Accepts script w.files program →
      FileTree.Confined (w.files.place (b.layoutFor script className).root)
        (w.files.place (b.layoutFor script className).artifact) w.files
        ((b.build script).on programs w).2.files ∧
      (program.units.map (·.name)).Nodup ∧
      ((∃ made, (b.layoutFor script className).Opens w.files made) →
        b.Leaves (b.layoutFor script className) program w.files
          ((b.build script).on programs w).2.files) := by
  constructor
  · intro refused
    cases accepted : script.scriptClass with
    | error failure =>
      rw [build, on_bind, on_ofExcept, accepted]
      exact ⟨rfl, rfl⟩
    | ok className =>
      have never : ¬∃ program, b.Accepts script w.files program := by
        rintro ⟨program, accepts⟩
        exact refused _ program accepted accepts
      obtain ⟨outcome, output, ended, -⟩ :=
        buildInto_of_not_accepts programs (b.layoutFor script className) never
      rw [on_build accepted, ended]
      exact ⟨rfl, rfl⟩
  · intro className program accepted accepts
    have named := accepts.wellNamed accepted
    have nested := nested_layoutFor (b := b) accepted
    rw [on_build accepted]
    refine ⟨confined_buildInto nested rfl framed named accepts, named.distinct, ?_⟩
    rintro ⟨made, opens⟩
    exact leaves_buildInto nested rfl framed named accepts opens

/-- A script with a struct, of which the sources are kept. -/
theorem build_leaves_sources :
    let program : Program :=
      ⟨"Demo",
        "public class Demo \x7b\n\tpublic static void main(String[] args) \x7b\n\t\x7d\n\x7d\n",
        [⟨"P", "public class P \x7b\n\tpublic int x;\n\x7d\n"⟩]⟩
    let w := Workspace.ofFiles
      ⟨[(["home", "Demo.auto"], .file (.text "struct P \x7b int x; \x7d\n") false)], ["home"]⟩
    let b : Builder := ⟨{ Config.default with keepSources := true }, .empty⟩
    let built := ((b.build "Demo.auto").on .plain w).2.files
    built.HoldsUnits ["home", "Demo", "gen"] program.units ∧
      ∀ place : Route, (["home", "Demo", "class"] : Route) <+: place →
        built.node? place = none := by
  intro program w b built
  have accepted : Path.scriptClass "Demo.auto" = .ok "Demo" := by decide +kernel
  have accepts : b.Accepts "Demo.auto" w.files program :=
    ⟨"struct P \x7b int x; \x7d\n", by decide +kernel, by decide +kernel⟩
  have sources : w.files.place (b.layoutFor "Demo.auto" "Demo").sources =
      (["home", "Demo", "gen"] : Route) := by
    decide +kernel
  have classes : w.files.place (b.layoutFor "Demo.auto" "Demo").classes =
      (["home", "Demo", "class"] : Route) := by
    decide +kernel
  have stages : ∃ staged, b.Stages (b.layoutFor "Demo.auto" "Demo") program w.files staged := by
    have staged : ((b.stage (b.layoutFor "Demo.auto" "Demo") program).on .plain w).1.toOption =
      some () := by decide +kernel
    rcases stage_cases b .plain (b.layoutFor "Demo.auto" "Demo") program w with
      ⟨files, stages, -⟩ | ⟨-, failure, after, done⟩
    · exact ⟨files, stages⟩
    · rw [done] at staged
      cases staged
  have opens : ∃ made, (b.layoutFor "Demo.auto" "Demo").Opens w.files made := by
    obtain ⟨staged, ready, prepares, made, creates, -⟩ := stages
    exact ⟨made, ready, prepares, creates⟩
  have leaves := ((build_leaves b "Demo.auto" w Programs.framed_plain).2 "Demo" program accepted
    accepts).2.2 opens
  constructor
  · rw [← sources]
    refine leaves.units rfl stages (.inr (FileTree.holdsUnits_nil.mpr ?_))
    rw [sources]
    intro rest _ content executable
    cases rest <;> simp [FileTree.node?, w, Workspace.ofFiles, List.lookup_cons]
  · rw [← classes]
    exact leaves.noClasses rfl stages

/-- The sources of a struct with a long name cannot be written. The build stops, and the directory
of the classes is left although no classes are to be kept. -/
theorem classes_left_behind :
    let name := List.replicate 251 'A'
    let w := Workspace.ofFiles
      ⟨[(["home", "Demo.auto"],
        .file (.text ("struct " ++ name ++ " \x7b int x; \x7d\n")) false)], ["home"]⟩
    let b : Builder := ⟨{ Config.default with keepSources := true }, .empty⟩
    let built := (b.build "Demo.auto").on .plain w
    built.1.toOption = none ∧ b.config.keepClasses = false ∧
      built.2.files.node? ["home", "Demo", "class"] = some .directory := by
  decide +kernel

end Builder

end ScriptLoom
