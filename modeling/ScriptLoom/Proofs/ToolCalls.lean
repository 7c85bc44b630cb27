import Mathlib.Data.List.Forall2
import Mathlib.Data.List.Infix
import ScriptLoom.Proofs.BuildStages

/-! # The programs that a build runs

A build compiles the units of its program one after the other and packs them. What it runs follows
the schedule: it goes on only behind a unit that passes, and the packager is run only when all have
passed (`Builder.Underway`, `Builder.Concluded`). A unit passes if the compiler reports success and
prints no error. A script is built exactly if nothing fails (`Builder.Succeeds`). What the programs
reply, and whether they can be started at all, is open throughout.
-/

namespace ScriptLoom

/-- Whether a unit with a source passes the compiler. -/
def Reply.passes (reply : Reply) (source : Text) : Bool :=
  reply.succeeded && !(CompilerMessage.read reply.errors source).any (·.isError)

namespace Builder

open ScriptLoom.Action

/-- The calls of a build without failures: the units in order, the main unit last, and then the
artifact. -/
def schedule (layout : Layout) (program : Program) : List Call :=
  program.units.map (compileCall layout) ++ [packageCall layout program]

/-- A unit was compiled and passed. -/
def Passed (layout : Layout) (unit : NamedSource) (exchange : Exchange) : Prop :=
  exchange.call = compileCall layout unit ∧ exchange.reply.passes unit.source = true

/-- Some units of a program were compiled in order, and all of them passed. -/
def Underway (layout : Layout) (program : Program) (exchanges : List Exchange) : Prop :=
  ∃ done rest, program.units = done ++ rest ∧ List.Forall₂ (Passed layout) done exchanges

/-- The last run of a build: a unit that fails behind units that passed, or the packager behind all
of them. -/
inductive Concluded (layout : Layout) (program : Program) : List Exchange → Prop
  | failed {done rest : List NamedSource} {unit : NamedSource} {exchanges : List Exchange}
      {reply : Reply} (split : program.units = done ++ unit :: rest)
      (passed : List.Forall₂ (Passed layout) done exchanges)
      (fails : reply.passes unit.source = false) :
      Concluded layout program (exchanges ++ [⟨compileCall layout unit, reply⟩])
  | packed {exchanges : List Exchange} (reply : Reply)
      (passed : List.Forall₂ (Passed layout) program.units exchanges) :
      Concluded layout program (exchanges ++ [⟨packageCall layout program, reply⟩])

/-- The file operations before a unit is compiled succeed. -/
def Readies (layout : Layout) (unit : NamedSource) (files written : FileTree) : Prop :=
  ∃ first second, files.createDirectories layout.sources = (.ok (), first) ∧
    first.createDirectories layout.classes = (.ok (), second) ∧
    second.write (unitFile layout.sources unit.name)
      (.text (SourceUnit.endLine unit.source)) = .ok written

/-- Units are compiled one after the other and pass, from files and a log to others. -/
def Compiles (b : Builder) (programs : Programs) (layout : Layout) :
    List NamedSource → FileTree × List Exchange → FileTree × List Exchange → Prop
  | [], start, compiled => compiled = start
  | unit :: rest, start, compiled => ∃ written reply files,
      Readies layout unit start.1 written ∧
      programs.run start.2 b.config.compiler (compileCall layout unit) written =
        .ok (reply, files) ∧
      reply.passes unit.source = true ∧
      b.Compiles programs layout rest (files, start.2 ++ [⟨compileCall layout unit, reply⟩])
        compiled

/-- A program is packed: the packager is run, reports success and leaves an artifact. -/
def Packs (b : Builder) (programs : Programs) (layout : Layout) (program : Program)
    (compiled : FileTree × List Exchange) : Prop :=
  ∃ reply files, programs.run compiled.2 b.config.packager (packageCall layout program)
      compiled.1 = .ok (reply, files) ∧
    reply.succeeded = true ∧ files.has layout.artifact = true

/-- A build in which nothing fails. -/
structure Succeeds (b : Builder) (programs : Programs) (script : Path) (w : Workspace)
    (className : Text) (program : Program) : Prop where
  named : script.scriptClass = .ok className
  accepts : b.Accepts script w.files program
  makes : ∃ staged compiled, b.Stages (b.layoutFor script className) program w.files staged ∧
    b.Compiles programs (b.layoutFor script className) program.units (staged, w.log) compiled ∧
    b.Packs programs (b.layoutFor script className) program compiled

variable {b : Builder} {programs : Programs} {script : Path} {layout : Layout} {program : Program}
  {w after : Workspace} {unit : NamedSource} {locator : Locator} {exchanges : List Exchange}

/-! ### The schedule -/

private theorem map_call_of_passed {done : List NamedSource}
    (passed : List.Forall₂ (Passed layout) done exchanges) :
    exchanges.map (·.call) = done.map (compileCall layout) := by
  induction passed with
  | nil => rfl
  | cons first _ ih => rw [List.map_cons, List.map_cons, first.1, ih]

/-- A build that is under way follows its schedule. -/
theorem Underway.isPrefix (underway : Underway layout program exchanges) :
    exchanges.map (·.call) <+: schedule layout program := by
  obtain ⟨done, rest, split, passed⟩ := underway
  rw [map_call_of_passed passed, schedule, split, List.map_append, List.append_assoc]
  exact List.prefix_append _ _

/-- So does a build that has come to its last run. -/
theorem Concluded.isPrefix (concluded : Concluded layout program exchanges) :
    exchanges.map (·.call) <+: schedule layout program := by
  cases concluded with
  | @failed done rest unit exchanges reply split passed fails =>
    refine ⟨rest.map (compileCall layout) ++ [packageCall layout program], ?_⟩
    rw [List.map_append, map_call_of_passed passed, schedule, split]
    simp
  | packed reply passed =>
    rw [List.map_append, map_call_of_passed passed]
    exact List.prefix_rfl

/-! ### Compiling -/

private theorem Readies.unique {files written other : FileTree}
    (readies : Readies layout unit files written) (readies' : Readies layout unit files other) :
    written = other := by
  obtain ⟨first, second, makes, makes', writes⟩ := readies
  obtain ⟨first', second', again, again', writes'⟩ := readies'
  cases makes.symm.trans again
  cases makes'.symm.trans again'
  exact Except.ok.inj (writes.symm.trans writes')

private theorem any_isError_messagesOf (program : Path) (reply : Reply) (source : Text) :
    (messagesOf program reply source).any (·.isError) = !reply.passes source := by
  rw [messagesOf, Reply.passes]
  generalize CompilerMessage.read reply.errors source = messages
  cases errors : messages.any (·.isError) with
  | true =>
    rw [Bool.or_true, if_pos rfl, errors, Bool.not_true, Bool.and_false, Bool.not_false]
  | false =>
    cases reply.succeeded with
    | true => exact errors
    | false => exact List.any_append.trans (Bool.or_true _)

/-- The part of compiling a unit before the compiler is run. -/
private def readyUnit (layout : Layout) (unit : NamedSource) : Action Unit := do
  Action.createDirectories layout.sources
  Action.createDirectories layout.classes
  Action.during (.writingUnit unit.name) (writeUnit layout.sources unit)

private theorem readyUnit_eq_ok {u : Unit} :
    (readyUnit layout unit).on programs w = (.ok u, after) ↔
      ∃ written, Readies layout unit w.files written ∧ after = { w with files := written } := by
  rw [readyUnit, on_bind_eq_ok]
  simp only [on_bind_eq_ok, Action.createDirectories, on_during_eq_ok, on_makeDirectories_eq_ok,
    writeUnit, on_write_eq_ok]
  constructor
  · rintro ⟨-, -, ⟨first, makes, rfl⟩, -, -, ⟨second, makes', rfl⟩, written, writes, rfl⟩
    exact ⟨written, ⟨first, second, makes, makes', writes⟩, rfl⟩
  · rintro ⟨written, ⟨first, second, makes, makes', writes⟩, rfl⟩
    exact ⟨(), _, ⟨first, makes, rfl⟩, (), _, ⟨second, makes', rfl⟩, written, writes, rfl⟩

private theorem log_readyUnit (programs : Programs) (layout : Layout) (unit : NamedSource)
    (w : Workspace) : ((readyUnit layout unit).on programs w).2.log = w.log := by
  have kept : Keeps programs (·.log = w.log) (readyUnit layout unit) :=
    .bind (.during (.makeDirectories fun _ => id)) fun _ =>
      .bind (.during (.makeDirectories fun _ => id)) fun _ =>
        .during (.write fun _ _ same _ => same)
  exact kept w rfl

/-- A unit is compiled if its file operations succeed and the compiler can be started; else nothing
is run. -/
private theorem compileUnit_cases (b : Builder) (programs : Programs) (layout : Layout)
    (unit : NamedSource) (w : Workspace) :
    (∃ written reply files, Readies layout unit w.files written ∧
      programs.run w.log b.config.compiler (compileCall layout unit) written =
        .ok (reply, files) ∧
      (b.compileUnit layout unit).on programs w =
        (.ok (messagesOf b.config.compiler reply unit.source),
          ⟨files, w.log ++ [⟨compileCall layout unit, reply⟩], w.output⟩)) ∨
    (∀ written reply files, Readies layout unit w.files written →
      programs.run w.log b.config.compiler (compileCall layout unit) written ≠
        .ok (reply, files)) ∧
      ∃ failure after, (b.compileUnit layout unit).on programs w = (.error failure, after) ∧
        after.log = w.log := by
  have split : b.compileUnit layout unit = Action.during (.compiling unit.name) (do
      readyUnit layout unit
      let reply ← Action.runProgram b.config.compiler (compileCall layout unit)
      return messagesOf b.config.compiler reply unit.source) := by
    simp only [compileUnit, readyUnit, compileCall, bind_assoc]
  have log := log_readyUnit programs layout unit w
  rw [split, on_during, on_bind]
  rcases ready : (readyUnit layout unit).on programs w with ⟨failure | _, ended⟩ <;>
    rw [ready] at log
  · refine .inr ⟨fun written reply files readies _ => ?_, _, _, rfl, log⟩
    have succeeds : (readyUnit layout unit).on programs w = (.ok (), { w with files := written }) :=
      readyUnit_eq_ok.mpr ⟨written, readies, rfl⟩
    rw [ready] at succeeds
    cases succeeds
  · obtain ⟨written, readies, rfl⟩ := readyUnit_eq_ok.mp ready
    dsimp only
    rw [on_bind, on_runProgram]
    rcases ran : programs.run w.log b.config.compiler (compileCall layout unit) written with
      error | ⟨reply, files⟩
    · refine .inr ⟨fun other reply files readies' ran' => ?_, _, _, rfl, rfl⟩
      rw [readies'.unique readies, ran] at ran'
      cases ran'
    · exact .inl ⟨written, reply, files, readies, ran, rfl⟩

private theorem exists_output_forM_print {γ : Type} (programs : Programs) (text : γ → Text)
    (items : List γ) (w : Workspace) :
    ∃ output, (items.forM fun item => Action.print (text item)).on programs w =
      (.ok (), { w with output := output }) := by
  induction items generalizing w with
  | nil => exact ⟨w.output, rfl⟩
  | cons item items ih => exact ih { w with output := w.output ++ (text item ++ ['\n']) }

/-- One step of compiling units. -/
private theorem compileUnits_cons (b : Builder) (programs : Programs) (layout : Layout)
    (locator : Locator) (unit : NamedSource) (rest : List NamedSource) (w : Workspace) :
    (∃ written reply files output, Readies layout unit w.files written ∧
      programs.run w.log b.config.compiler (compileCall layout unit) written =
        .ok (reply, files) ∧
      (b.compileUnits layout locator (unit :: rest)).on programs w =
        if reply.passes unit.source then (b.compileUnits layout locator rest).on programs
          ⟨files, w.log ++ [⟨compileCall layout unit, reply⟩], output⟩
        else (.ok false, ⟨files, w.log ++ [⟨compileCall layout unit, reply⟩], output⟩)) ∨
    (∀ written reply files, Readies layout unit w.files written →
      programs.run w.log b.config.compiler (compileCall layout unit) written ≠
        .ok (reply, files)) ∧
      ∃ failure after,
        (b.compileUnits layout locator (unit :: rest)).on programs w = (.error failure, after) ∧
          after.log = w.log := by
  rw [compileUnits, on_bind]
  rcases compileUnit_cases b programs layout unit w with
    ⟨written, reply, files, readies, ran, done⟩ | ⟨never, failure, after, failed, log⟩
  · left
    rw [done]
    dsimp only
    rw [on_bind]
    obtain ⟨output, printed⟩ := exists_output_forM_print programs
      (fun m => b.terminal.showMessage (locator.locate unit.name unit.source m))
      (messagesOf b.config.compiler reply unit.source)
      ⟨files, w.log ++ [⟨compileCall layout unit, reply⟩], w.output⟩
    refine ⟨written, reply, files, output, readies, ran, ?_⟩
    rw [printed]
    dsimp only
    rw [any_isError_messagesOf]
    cases reply.passes unit.source <;> rfl
  · right
    rw [failed]
    exact ⟨never, failure, after, rfl, log⟩

section Run

variable (b : Builder) (programs : Programs) (layout : Layout) (locator : Locator)

/-- What is run while units are compiled, by how that ends. -/
private theorem log_compileUnits (units : List NamedSource) (w : Workspace) :
    ∃ exchanges,
      ((b.compileUnits layout locator units).on programs w).2.log = w.log ++ exchanges ∧
      (∃ done rest, units = done ++ rest ∧ ∃ passed, List.Forall₂ (Passed layout) done passed ∧
        ((∃ failure, ((b.compileUnits layout locator units).on programs w).1 = .error failure) ∧
            exchanges = passed ∨
          ((b.compileUnits layout locator units).on programs w).1 = .ok true ∧ rest = [] ∧
            exchanges = passed ∨
          ((b.compileUnits layout locator units).on programs w).1 = .ok false ∧
            ∃ unit later reply, rest = unit :: later ∧ reply.passes unit.source = false ∧
              exchanges = passed ++ [⟨compileCall layout unit, reply⟩])) := by
  induction units generalizing w with
  | nil => exact ⟨[], (List.append_nil _).symm, [], [], rfl, [], .nil, .inr (.inl ⟨rfl, rfl, rfl⟩)⟩
  | cons unit rest ih =>
    rcases compileUnits_cons b programs layout locator unit rest w with
      ⟨written, reply, files, output, -, -, step⟩ | ⟨-, failure, after, failed, log⟩
    · rw [step]
      cases passes : reply.passes unit.source with
      | false =>
        exact ⟨[⟨compileCall layout unit, reply⟩], rfl, [], unit :: rest, rfl, [], .nil,
          .inr (.inr ⟨rfl, unit, rest, reply, rfl, passes, rfl⟩)⟩
      | true =>
        obtain ⟨exchanges, log, done, left, rfl, passed, all, ended⟩ :=
          ih ⟨files, w.log ++ [⟨compileCall layout unit, reply⟩], output⟩
        refine ⟨⟨compileCall layout unit, reply⟩ :: exchanges, ?_, unit :: done, left, rfl,
          ⟨compileCall layout unit, reply⟩ :: passed, .cons ⟨rfl, passes⟩ all, ?_⟩
        · rw [if_pos rfl, log, List.append_assoc, List.singleton_append]
        · rw [if_pos rfl]
          rcases ended with ⟨failed, rfl⟩ | ⟨ok, none, rfl⟩ |
            ⟨ok, other, later, last, some_, fails, rfl⟩
          · exact .inl ⟨failed, rfl⟩
          · exact .inr (.inl ⟨ok, none, rfl⟩)
          · exact .inr (.inr ⟨ok, other, later, last, some_, fails, rfl⟩)
    · rw [failed]
      exact ⟨[], by simpa using log, [], unit :: rest, rfl, [], .nil, .inl ⟨⟨failure, rfl⟩, rfl⟩⟩

private theorem compileUnits_eq_true (units : List NamedSource) (w : Workspace)
    (compiled : FileTree × List Exchange) :
    ((b.compileUnits layout locator units).on programs w).1 = .ok true ∧
        (((b.compileUnits layout locator units).on programs w).2.files,
          ((b.compileUnits layout locator units).on programs w).2.log) = compiled ↔
      b.Compiles programs layout units (w.files, w.log) compiled := by
  induction units generalizing w with
  | nil =>
    rw [compileUnits, on_pure, Compiles]
    exact ⟨fun ended => ended.2.symm, fun same => ⟨rfl, same.symm⟩⟩
  | cons unit rest ih =>
    rw [Compiles]
    rcases compileUnits_cons b programs layout locator unit rest w with
      ⟨written, reply, files, output, readies, ran, step⟩ | ⟨never, failure, after, failed, -⟩
    · rw [step]
      -- The files are determined, so the step of the relation is the one that was taken.
      have only : (∃ written reply files, Readies layout unit w.files written ∧
          programs.run w.log b.config.compiler (compileCall layout unit) written =
            .ok (reply, files) ∧ reply.passes unit.source = true ∧
          b.Compiles programs layout rest (files, w.log ++ [⟨compileCall layout unit, reply⟩])
            compiled) ↔ reply.passes unit.source = true ∧
          b.Compiles programs layout rest (files, w.log ++ [⟨compileCall layout unit, reply⟩])
            compiled := by
        constructor
        · rintro ⟨written', reply', files', readies', ran', passes, compiles⟩
          rw [readies'.unique readies, ran] at ran'
          cases ran'
          exact ⟨passes, compiles⟩
        · rintro ⟨passes, compiles⟩
          exact ⟨written, reply, files, readies, ran, passes, compiles⟩
      rw [only]
      cases reply.passes unit.source with
      | true =>
        have later := ih ⟨files, w.log ++ [⟨compileCall layout unit, reply⟩], output⟩
        rw [if_pos rfl, later]
        simp
      | false => simp
    · rw [failed]
      refine iff_of_false (by simp) ?_
      rintro ⟨written, reply, files, readies, ran, -⟩
      exact never written reply files readies ran

end Run

/-! ### Packing -/

/-- The part of packing behind the run of the packager. -/
private def deliver (b : Builder) (layout : Layout) (reply : Reply) : Action Unit :=
  if reply.succeeded then do
    Action.during (.reading layout.artifact) (Action.find layout.artifact)
    Action.during (.marking layout.artifact) (Action.markExecutable layout.artifact)
  else
    Action.during (.packaging layout.artifact)
      (throw (.of (.packagingFailed (.error .packaging 0 (reply.complaint b.config.packager)))))

private theorem log_deliver (b : Builder) (programs : Programs) (layout : Layout) (reply : Reply)
    (w : Workspace) : ((b.deliver layout reply).on programs w).2.log = w.log := by
  have kept : Keeps programs (·.log = w.log) (b.deliver layout reply) := by
    rw [deliver]
    split
    · exact .bind (.during (.find _)) fun _ => .during (.markExecutable fun _ _ same _ => same)
    · exact .during (.throw _)
  exact kept w rfl

private theorem exists_markExecutable {files : FileTree} {path : Path}
    (there : files.has path = true) : ∃ marked, files.markExecutable path = .ok marked := by
  rw [FileTree.has] at there
  rw [FileTree.markExecutable]
  rcases found : files.find path with error | ⟨route, _ | ⟨content, executable⟩⟩
  · rw [found] at there
    cases there
  · exact ⟨_, rfl⟩
  · exact ⟨_, rfl⟩

private theorem deliver_eq_ok {reply : Reply} :
    ((b.deliver layout reply).on programs w).1 = .ok () ↔
      reply.succeeded = true ∧ w.files.has layout.artifact = true := by
  rw [deliver]
  cases reply.succeeded with
  | false =>
    rw [if_neg Bool.false_ne_true, on_during, on_throw]
    exact iff_of_false (fun ended => by cases ended) (by simp)
  | true =>
    rw [if_pos rfl]
    constructor
    · intro ended
      obtain ⟨_, found, finds, -⟩ := on_bind_eq_ok.mp (Prod.ext ended rfl)
      exact ⟨rfl, (on_find_eq_ok.mp (on_during_eq_ok.mp finds)).1⟩
    · rintro ⟨-, there⟩
      obtain ⟨marked, marks⟩ := exists_markExecutable there
      exact congrArg Prod.fst (on_bind_eq_ok.mpr ⟨(), w,
        on_during_eq_ok.mpr (on_find_eq_ok.mpr ⟨there, rfl⟩),
        on_during_eq_ok.mpr (on_markExecutable_eq_ok.mpr ⟨marked, marks, rfl⟩)⟩)

private theorem on_package (b : Builder) (programs : Programs) (layout : Layout)
    (program : Program) (w : Workspace) :
    (b.package layout program.className).on programs w =
      match programs.run w.log b.config.packager (packageCall layout program) w.files with
      | .ok (reply, files) => (b.deliver layout reply).on programs
          { w with files := files, log := w.log ++ [⟨packageCall layout program, reply⟩] }
      | .error error =>
        (.error (.during (.running b.config.packager) (.of (.system error))), w) := by
  have split : b.package layout program.className =
      Action.runProgram b.config.packager (packageCall layout program) >>= b.deliver layout := rfl
  rw [split, on_bind, on_runProgram]
  rcases programs.run w.log b.config.packager (packageCall layout program) w.files with
    error | ⟨reply, files⟩ <;> rfl

/-- The packager is run once, unless it cannot be started. -/
private theorem log_package (b : Builder) (programs : Programs) (layout : Layout)
    (program : Program) (w : Workspace) :
    (∃ reply, ((b.package layout program.className).on programs w).2.log =
      w.log ++ [⟨packageCall layout program, reply⟩]) ∨
    ((b.package layout program.className).on programs w).2.log = w.log ∧
      ((b.package layout program.className).on programs w).1 ≠ .ok () := by
  rw [on_package]
  rcases programs.run w.log b.config.packager (packageCall layout program) w.files with
    error | ⟨reply, files⟩
  · exact .inr ⟨rfl, by simp⟩
  · exact .inl ⟨reply, log_deliver _ _ _ _ _⟩

private theorem package_eq_ok :
    ((b.package layout program.className).on programs w).1 = .ok () ↔
      b.Packs programs layout program (w.files, w.log) := by
  rw [on_package, Packs]
  rcases ran : programs.run w.log b.config.packager (packageCall layout program) w.files with
    error | ⟨reply, files⟩
  · simp
  · dsimp only
    rw [deliver_eq_ok]
    constructor
    · exact fun packed => ⟨reply, files, rfl, packed⟩
    · rintro ⟨_, _, same, packed⟩
      cases same
      exact packed

/-! ### The whole build -/

private theorem map_true_eq_ok {result : Except Failure Unit} {made : Bool} :
    result.map (fun _ => true) = .ok made ↔ result = .ok () ∧ made = true := by
  cases result <;> simp [Except.map, eq_comm]

private theorem on_makeArtifact (b : Builder) (programs : Programs) (layout : Layout)
    (locator : Locator) (program : Program) (w : Workspace) :
    (b.makeArtifact layout locator program).on programs w =
      match (b.compileUnits layout locator program.units).on programs w with
      | (.error failure, after) => (.error failure, after)
      | (.ok false, after) => (.ok false, after)
      | (.ok true, after) =>
        (((b.package layout program.className).on programs after).1.map fun _ => true,
          ((b.package layout program.className).on programs after).2) := by
  rw [makeArtifact, on_bind]
  rcases (b.compileUnits layout locator program.units).on programs w with ⟨_ | compiled, after⟩
  · rfl
  · cases compiled with
    | false => rfl
    | true =>
      dsimp only
      rw [if_pos rfl, on_bind]
      rcases (b.package layout program.className).on programs after with ⟨_ | _, _⟩ <;> rfl

private theorem log_makeArtifact (b : Builder) (programs : Programs) (layout : Layout)
    (locator : Locator) (program : Program) (w : Workspace) :
    ∃ exchanges,
      ((b.makeArtifact layout locator program).on programs w).2.log = w.log ++ exchanges ∧
      (Underway layout program exchanges ∨ Concluded layout program exchanges) ∧
      ∀ made, ((b.makeArtifact layout locator program).on programs w).1 = .ok made →
        Concluded layout program exchanges := by
  obtain ⟨exchanges, log, done, rest, split, passed, all, ended⟩ :=
    log_compileUnits b programs layout locator program.units w
  rw [on_makeArtifact]
  rcases compiled : (b.compileUnits layout locator program.units).on programs w with
    ⟨result, after⟩
  rw [compiled] at log ended
  rcases ended with ⟨⟨failure, rfl⟩, rfl⟩ | ⟨rfl, rfl, rfl⟩ |
    ⟨rfl, unit, later, reply, rfl, fails, rfl⟩
  · exact ⟨exchanges, log, .inl ⟨done, rest, split, all⟩, by simp⟩
  · rw [List.append_nil] at split
    rw [← split] at all
    rcases log_package b programs layout program after with ⟨reply, packed⟩ | ⟨same, failed⟩
    · have concluded : Concluded layout program
          (exchanges ++ [⟨packageCall layout program, reply⟩]) := .packed reply all
      refine ⟨_, ?_, .inr concluded, fun _ _ => concluded⟩
      rw [packed, log, List.append_assoc]
    · refine ⟨exchanges, same.trans log, .inl ⟨_, [], (List.append_nil _).symm, all⟩, ?_⟩
      exact fun made ok => absurd (map_true_eq_ok.mp ok).1 failed
  · have concluded : Concluded layout program
        (passed ++ [⟨compileCall layout unit, reply⟩]) := .failed split all fails
    exact ⟨_, log, .inr concluded, fun _ _ => concluded⟩

private theorem makeArtifact_eq_true :
    ((b.makeArtifact layout locator program).on programs w).1 = .ok true ↔
      ∃ compiled, b.Compiles programs layout program.units (w.files, w.log) compiled ∧
        b.Packs programs layout program compiled := by
  have compiles := compileUnits_eq_true b programs layout locator program.units w
  rw [on_makeArtifact]
  rcases done : (b.compileUnits layout locator program.units).on programs w with
    ⟨failure | compiled, after⟩ <;> rw [done] at compiles
  · refine iff_of_false (by simp) ?_
    rintro ⟨files, compiled, -⟩
    cases ((compiles files).mpr compiled).1
  · cases compiled with
    | false =>
      refine iff_of_false (by simp) ?_
      rintro ⟨files, compiled, -⟩
      cases ((compiles files).mpr compiled).1
    | true =>
      refine map_true_eq_ok.trans ((and_iff_left rfl).trans ?_)
      rw [package_eq_ok]
      constructor
      · exact fun packs => ⟨_, (compiles _).mp ⟨rfl, rfl⟩, packs⟩
      · rintro ⟨files, compiled, packs⟩
        rwa [← ((compiles files).mpr compiled).2] at packs

private theorem log_stage (b : Builder) (programs : Programs) (layout : Layout)
    (program : Program) (w : Workspace) :
    ((b.stage layout program).on programs w).2.log = w.log := by
  have prepares : Keeps programs (·.log = w.log) (prepare layout) := by
    intro ready same
    rw [on_prepare]
    split
    · exact same
    · rw [Action.createDirectories, on_during]
      exact same
  have writes : Keeps programs (·.log = w.log) (writeSources layout program) :=
    .during (.bind (.makeDirectories fun _ => id) fun _ =>
      .bind (.write fun _ _ same _ => same) fun _ =>
        .forM fun _ _ => .write fun _ _ same _ => same)
  have stages : Keeps programs (·.log = w.log) (b.stage layout program) := by
    refine .bind prepares fun _ => ?_
    split
    · exact writes
    · exact .pure _
  exact stages w rfl

private theorem log_buildInto (programs : Programs) {text : Text}
    (read : w.files.readText script = .ok text)
    (made : Program.ofScript text (script.fileName?.getD []) b.catalog = .ok program) :
    ∃ exchanges, ((b.buildInto script layout).on programs w).2.log = w.log ++ exchanges ∧
      (Underway layout program exchanges ∨ Concluded layout program exchanges) ∧
      ∀ outcome, ((b.buildInto script layout).on programs w).1 = .ok outcome →
        Concluded layout program exchanges := by
  have log := log_stage b programs layout program w
  rw [on_buildInto read made]
  rcases stage_cases b programs layout program w with
    ⟨files, -, done⟩ | ⟨-, failure, after, done⟩ <;> rw [done] at log ⊢
  · obtain ⟨exchanges, log, state, ended⟩ := log_makeArtifact b programs layout
      (locatorFor script text program) program { w with files := files }
    dsimp only
    rcases built : (b.makeArtifact layout (locatorFor script text program) program).on programs
      { w with files := files } with ⟨failure | packed, after⟩ <;>
      rw [built] at log ended
    · exact ⟨exchanges, log, state, by simp⟩
    · cases packed <;> exact ⟨exchanges, log, state, fun _ _ => ended _ rfl⟩
  · exact ⟨[], by simpa using log, .inl ⟨[], _, rfl, .nil⟩, by simp⟩

/-- A build ends well exactly if its directory is made and an artifact is made in it. -/
theorem buildInto_eq_built {text : Text} {artifact : Path}
    (read : w.files.readText script = .ok text)
    (made : Program.ofScript text (script.fileName?.getD []) b.catalog = .ok program) :
    ((b.buildInto script layout).on programs w).1 = .ok (.built artifact) ↔
      artifact = layout.artifact ∧ ∃ staged, b.Stages layout program w.files staged ∧
        ((b.makeArtifact layout (locatorFor script text program) program).on programs
          { w with files := staged }).1 = .ok true := by
  rw [on_buildInto read made]
  rcases stage_cases b programs layout program w with
    ⟨files, stages, done⟩ | ⟨unstaged, failure, after, done⟩ <;> rw [done]
  · have only : (∃ other, b.Stages layout program w.files other ∧
        ((b.makeArtifact layout (locatorFor script text program) program).on programs
          { w with files := other }).1 = .ok true) ↔
        ((b.makeArtifact layout (locatorFor script text program) program).on programs
          { w with files := files }).1 = .ok true :=
      ⟨fun ⟨other, stages', packed⟩ => stages'.unique stages ▸ packed,
        fun packed => ⟨files, stages, packed⟩⟩
    rw [only]
    dsimp only
    rcases (b.makeArtifact layout (locatorFor script text program) program).on programs
      { w with files := files } with ⟨failure | packed, after⟩
    · simp
    · cases packed with
      | false => simp
      | true =>
        change Except.ok (Outcome.built layout.artifact) = .ok (.built artifact) ↔ _
        simp [eq_comm]
  · refine iff_of_false (by simp) ?_
    rintro ⟨-, files, stages, -⟩
    exact unstaged ⟨files, stages⟩

private theorem buildInto_eq_built_iff {className : Text} {artifact : Path}
    (named : script.scriptClass = .ok className) (accepts : b.Accepts script w.files program) :
    ((b.buildInto script (b.layoutFor script className)).on programs w).1 =
        .ok (.built artifact) ↔
      b.Succeeds programs script w className program ∧
        artifact = (b.layoutFor script className).artifact := by
  obtain ⟨text, read, made⟩ := accepts
  rw [buildInto_eq_built read made]
  simp only [makeArtifact_eq_true]
  constructor
  · rintro ⟨rfl, staged, stages, compiled, compiles, packs⟩
    exact ⟨⟨named, ⟨text, read, made⟩, staged, compiled, stages, compiles, packs⟩, rfl⟩
  · rintro ⟨⟨-, -, staged, compiled, stages, compiles, packs⟩, rfl⟩
    exact ⟨rfl, staged, stages, compiled, compiles, packs⟩

/-- **What a build runs, and when it succeeds.** If no program is made of a script, nothing is run.
Otherwise the runs follow the schedule: units are compiled in order as long as they pass, and the
packager is run behind all of them. A build that does not fail has come to its last run, and a
script is built exactly if nothing fails. This holds whatever the programs do. -/
theorem calls_build_and_built_iff (b : Builder) (programs : Programs) (script : Path)
    (w : Workspace) :
    ((∀ className program, script.scriptClass = .ok className →
        ¬b.Accepts script w.files program) →
      ((b.build script).on programs w).2.log = w.log) ∧
    (∀ className program, script.scriptClass = .ok className → b.Accepts script w.files program →
      ∃ exchanges, ((b.build script).on programs w).2.log = w.log ++ exchanges ∧
        exchanges.map (·.call) <+: schedule (b.layoutFor script className) program ∧
        (Underway (b.layoutFor script className) program exchanges ∨
          Concluded (b.layoutFor script className) program exchanges) ∧
        ∀ outcome, ((b.build script).on programs w).1 = .ok outcome →
          Concluded (b.layoutFor script className) program exchanges) ∧
    ∀ artifact, ((b.build script).on programs w).1 = .ok (.built artifact) ↔
      ∃ className program, b.Succeeds programs script w className program ∧
        artifact = (b.layoutFor script className).artifact := by
  cases named : script.scriptClass with
  | error failure =>
    have failed : (b.build script).on programs w = (.error failure, w) := by
      rw [build, on_bind, on_ofExcept, named]
    rw [failed]
    refine ⟨fun _ => rfl, by simp, fun artifact => iff_of_false (by simp) ?_⟩
    rintro ⟨className, _, succeeds, -⟩
    cases named.symm.trans succeeds.named
  | ok className =>
    rw [on_build named]
    by_cases accepts : ∃ program, b.Accepts script w.files program
    · obtain ⟨program, accepts⟩ := accepts
      refine ⟨fun refused => absurd accepts (refused _ program rfl), ?_, fun artifact => ?_⟩
      · rintro _ other ⟨⟩ ⟨text, read, made⟩
        obtain ⟨exchanges, log, state, ended⟩ := log_buildInto programs read made
        exact ⟨exchanges, log, state.elim Underway.isPrefix Concluded.isPrefix, state, ended⟩
      · rw [buildInto_eq_built_iff named accepts]
        constructor
        · exact fun succeeds => ⟨className, program, succeeds⟩
        · rintro ⟨className', program', succeeds, rfl⟩
          cases named.symm.trans succeeds.named
          obtain rfl := succeeds.accepts.unique accepts
          exact ⟨succeeds, rfl⟩
    · obtain ⟨outcome, output, ended, unbuilt⟩ :=
        buildInto_of_not_accepts programs (b.layoutFor script className) accepts
      rw [ended]
      refine ⟨fun _ => rfl, fun _ program _ accepted => absurd ⟨program, accepted⟩ accepts,
        fun artifact => iff_of_false (unbuilt artifact) ?_⟩
      rintro ⟨_, program, succeeds, -⟩
      exact accepts ⟨program, succeeds.accepts⟩

end Builder

end ScriptLoom
