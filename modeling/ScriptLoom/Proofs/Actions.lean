import ScriptLoom.Build
import ScriptLoom.Workspace

/-! # Actions on workspaces

What each kind of action does to a workspace, as equations for `Action.on`. An action succeeds
exactly if its parts do (`Action.on_bind_eq_ok`), and a predicate of the workspace that every part
keeps is kept by the whole, whatever the outcome (`Action.Keeps`). What the programs do stays open
in all of it.
-/

namespace ScriptLoom

variable {α β : Type}

namespace Dialogue

private theorem id_map_eq (dialogue : Dialogue α) : id <$> dialogue = dialogue := by
  induction dialogue with
  | done result => rfl
  | ask request next ih => exact congrArg (Dialogue.ask request) (funext ih)

private theorem bind_assoc_eq {γ : Type} (dialogue : Dialogue α) (rest : α → Dialogue β)
    (last : β → Dialogue γ) :
    dialogue >>= rest >>= last = dialogue >>= fun result => rest result >>= last := by
  induction dialogue with
  | done result => rfl
  | ask request next ih => exact congrArg (Dialogue.ask request) (funext ih)

instance : LawfulMonad Dialogue :=
  .mk' Dialogue id_map_eq (fun _ _ => rfl) bind_assoc_eq

/-- A dialogue goes on where the one before it ended. -/
theorem on_bind (programs : Programs) (dialogue : Dialogue α) (rest : α → Dialogue β)
    (w : Workspace) :
    (dialogue >>= rest).on programs w =
      (rest (dialogue.on programs w).1).on programs (dialogue.on programs w).2 := by
  induction dialogue generalizing w with
  | done result => rfl
  | ask request next ih => exact ih _ _

end Dialogue

namespace Action

variable (programs : Programs)

/-- An action goes on where the one before it ended, if that did not fail. -/
theorem on_bind (first : Action α) (next : α → Action β) (w : Workspace) :
    (first >>= next).on programs w =
      match first.on programs w with
      | (.ok a, w') => (next a).on programs w'
      | (.error failure, w') => (.error failure, w') := by
  refine (Dialogue.on_bind programs first.run (ExceptT.bindCont next) w).trans ?_
  rw [Action.on]
  rcases Dialogue.on programs first.run w with ⟨_ | _, _⟩ <;> rfl

/-- To return a value does nothing. -/
theorem on_pure (a : α) (w : Workspace) : (pure a : Action α).on programs w = (.ok a, w) :=
  rfl

/-- To fail does nothing. -/
theorem on_throw (failure : Failure) (w : Workspace) :
    (throw failure : Action α).on programs w = (.error failure, w) :=
  rfl

/-- A result is the outcome of an action that does nothing. -/
theorem on_ofExcept (result : Except Failure α) (w : Workspace) :
    (ofExcept result).on programs w = (result, w) :=
  rfl

/-- A request changes a workspace as its answer says. -/
theorem on_ask (request : Request) (w : Workspace) :
    (ask request).on programs w =
      (.ok (w.answer programs request).1, (w.answer programs request).2) :=
  rfl

/-- An attempt does what the action does and does not fail. -/
theorem on_attempt (action : Action α) (w : Workspace) :
    action.attempt.on programs w = (.ok (action.on programs w).1, (action.on programs w).2) :=
  Dialogue.on_bind programs action.run (fun result => pure (Except.ok result)) w

/-- An activity does what the action does and is named in its failures. -/
theorem on_during (activity : Activity) (action : Action α) (w : Workspace) :
    (during activity action).on programs w =
      ((action.on programs w).1.mapError (Failure.during activity), (action.on programs w).2) :=
  Dialogue.on_bind programs action.run (fun result => pure (result.mapError _)) w

/-- A text is read from the files. -/
theorem on_readText (path : Path) (w : Workspace) :
    (readText path).on programs w =
      ((w.files.readText path).mapError fun error =>
        .during (.reading path) (.of (.system error)), w) := by
  rw [readText, on_during, on_bind, on_ask]
  change ((w.files.readText path).mapError _ |>.mapError _, w) = _
  cases w.files.readText path <;> rfl

/-- Directories are made in the files. -/
theorem on_makeDirectories (path : Path) (w : Workspace) :
    (makeDirectories path).on programs w =
      ((w.files.createDirectories path).1.mapError fun error => .of (.system error),
        { w with files := (w.files.createDirectories path).2 }) :=
  rfl

/-- A directory is removed from the files, or nothing is done. -/
theorem on_removeDirectory (path : Path) (w : Workspace) :
    (removeDirectory path).on programs w =
      match w.files.removeDirectory path with
      | .ok files => (.ok (), { w with files := files })
      | .error error => (.error (.of (.system error)), w) := by
  change ((w.change (FileTree.removeDirectory path)).1.mapError _, _) = _
  rw [Workspace.change]
  cases w.files.removeDirectory path <;> rfl

/-- A program is run, or it cannot be started. -/
theorem on_runProgram (program : Path) (call : Call) (w : Workspace) :
    (runProgram program call).on programs w =
      match programs.run w.log program call w.files with
      | .ok (reply, files) =>
        (.ok reply, { w with files := files, log := w.log ++ [⟨call, reply⟩] })
      | .error error => (.error (.during (.running program) (.of (.system error))), w) := by
  rw [runProgram, on_during, on_bind, on_ask]
  change (((w.runProgram programs program call).1.mapError _).mapError _,
    (w.runProgram programs program call).2) = _
  rw [Workspace.runProgram]
  rcases programs.run w.log program call w.files with error | ⟨reply, files⟩ <;> rfl

variable {programs}

/-! ### Success -/

/-- Only errors are converted. -/
theorem mapError_eq_ok {ε ε' : Type} {convert : ε → ε'} {result : Except ε α} {a : α} :
    result.mapError convert = .ok a ↔ result = .ok a := by
  cases result with
  | error e => constructor <;> intro ended <;> cases ended
  | ok b => constructor <;> intro ended <;> cases ended <;> rfl

/-- An action succeeds exactly if its parts do. -/
theorem on_bind_eq_ok {first : Action α} {next : α → Action β} {w after : Workspace} {b : β} :
    (first >>= next).on programs w = (.ok b, after) ↔
      ∃ a middle, first.on programs w = (.ok a, middle) ∧
        (next a).on programs middle = (.ok b, after) := by
  rw [on_bind]
  rcases first.on programs w with ⟨_ | a, middle⟩
  · simp
  · constructor
    · exact fun later => ⟨a, middle, rfl, later⟩
    · rintro ⟨_, _, same, later⟩
      cases same
      exact later

/-- An activity succeeds exactly if its action does. -/
theorem on_during_eq_ok {activity : Activity} {action : Action α} {w after : Workspace} {a : α} :
    (during activity action).on programs w = (.ok a, after) ↔
      action.on programs w = (.ok a, after) := by
  rw [on_during, Prod.ext_iff, Prod.ext_iff]
  exact and_congr_left' mapError_eq_ok

private theorem change_eq_ok {operation : FileTree → Except SystemError FileTree}
    {convert : SystemError → Failure} {w after : Workspace} {u : Unit} :
    ((w.change operation).1.mapError convert, (w.change operation).2) = (.ok u, after) ↔
      ∃ files, operation w.files = .ok files ∧ after = { w with files := files } := by
  rw [Prod.mk.injEq, mapError_eq_ok, Workspace.change]
  cases operation w.files <;> simp [eq_comm]

/-- A file is written exactly if the files allow it. -/
theorem on_write_eq_ok {path : Path} {text : Text} {w after : Workspace} {u : Unit} :
    (write path text).on programs w = (.ok u, after) ↔
      ∃ files, w.files.write path (.text text) = .ok files ∧ after = { w with files := files } :=
  change_eq_ok

/-- A file is made executable exactly if the files allow it. -/
theorem on_markExecutable_eq_ok {path : Path} {w after : Workspace} {u : Unit} :
    (markExecutable path).on programs w = (.ok u, after) ↔
      ∃ files, w.files.markExecutable path = .ok files ∧ after = { w with files := files } :=
  change_eq_ok

/-- A path is found exactly if it names something. -/
theorem on_find_eq_ok {path : Path} {w after : Workspace} {u : Unit} :
    (find path).on programs w = (.ok u, after) ↔ w.files.has path = true ∧ after = w := by
  change (((w.files.find path).map _).mapError _, w) = _ ↔ _
  rw [FileTree.has, Prod.mk.injEq, mapError_eq_ok]
  cases w.files.find path <;> simp [Except.map, Except.toBool, eq_comm]

/-- Directories are made exactly if the files allow it. -/
theorem on_makeDirectories_eq_ok {path : Path} {w after : Workspace} {u : Unit} :
    (makeDirectories path).on programs w = (.ok u, after) ↔
      ∃ files, w.files.createDirectories path = (.ok (), files) ∧
        after = { w with files := files } := by
  rw [on_makeDirectories, Prod.mk.injEq, mapError_eq_ok]
  constructor
  · rintro ⟨made, rfl⟩
    exact ⟨_, Prod.ext made rfl, rfl⟩
  · rintro ⟨files, made, rfl⟩
    rw [made]
    exact ⟨rfl, rfl⟩

/-! ### What actions keep -/

/-- An action after which a predicate of the workspace holds if it held before, be its outcome a
value or a failure. -/
def Keeps (programs : Programs) (property : Workspace → Prop) (action : Action α) : Prop :=
  ∀ w, property w → property (action.on programs w).2

variable {property : Workspace → Prop}

/-- What holds after the first part of an action and is kept by the rest holds in the end. -/
theorem holds_bind (property : Workspace → Prop) {first : Action α} {next : α → Action β}
    {w : Workspace} (middle : property (first.on programs w).2)
    (later : ∀ a, Keeps programs property (next a)) :
    property ((first >>= next).on programs w).2 := by
  rw [on_bind]
  rcases done : first.on programs w with ⟨_ | a, w'⟩ <;> rw [done] at middle
  · exact middle
  · exact later a w' middle

namespace Keeps

/-- What the parts of an action keep is kept by the action. -/
theorem bind {first : Action α} {next : α → Action β} (start : Keeps programs property first)
    (later : ∀ a, Keeps programs property (next a)) : Keeps programs property (first >>= next) :=
  fun w holds => holds_bind _ (start w holds) later

/-- To return a value keeps everything. -/
theorem pure (a : α) : Keeps programs property (Pure.pure a : Action α) :=
  fun _ holds => holds

/-- To give a result keeps everything. -/
theorem ofExcept (result : Except Failure α) : Keeps programs property (ofExcept result) :=
  fun _ holds => holds

/-- To fail keeps everything. -/
theorem throw (failure : Failure) : Keeps programs property (throw failure : Action α) :=
  fun _ holds => holds

/-- An activity keeps what its action keeps. -/
theorem during {activity : Activity} {action : Action α} (kept : Keeps programs property action) :
    Keeps programs property (during activity action) := by
  intro w holds
  rw [on_during]
  exact kept w holds

/-- Printing keeps what does not depend on the output. -/
theorem print {text : Text}
    (kept : ∀ w output, property w → property { w with output := output }) :
    Keeps programs property (print text) :=
  fun w holds => kept w _ holds

/-- Looking for a file keeps everything. -/
theorem isFile (path : Path) : Keeps programs property (isFile path) :=
  fun _ holds => holds

/-- Looking a path up keeps everything. -/
theorem find (path : Path) : Keeps programs property (find path) :=
  fun _ holds => holds

/-- Reading keeps everything. -/
theorem readText (path : Path) : Keeps programs property (readText path) :=
  .during fun _ holds => holds

private theorem change {operation : FileTree → Except SystemError FileTree} {w : Workspace}
    (holds : property w)
    (kept : ∀ after, operation w.files = .ok after → property { w with files := after }) :
    property (w.change operation).2 := by
  rw [Workspace.change]
  cases changed : operation w.files with
  | error error => exact holds
  | ok files => exact kept _ changed

/-- Writing keeps what holds after each write that succeeds. -/
theorem write {path : Path} {text : Text}
    (kept : ∀ w after, property w → w.files.write path (.text text) = .ok after →
      property { w with files := after }) :
    Keeps programs property (write path text) :=
  fun w holds => change holds fun after => kept w after holds

/-- Marking keeps what holds after each marking that succeeds. -/
theorem markExecutable {path : Path}
    (kept : ∀ w after, property w → w.files.markExecutable path = .ok after →
      property { w with files := after }) :
    Keeps programs property (markExecutable path) :=
  fun w holds => change holds fun after => kept w after holds

/-- Making directories keeps what holds once they are made as far as possible. -/
theorem makeDirectories {path : Path}
    (kept : ∀ w, property w → property { w with files := (w.files.createDirectories path).2 }) :
    Keeps programs property (makeDirectories path) :=
  fun w holds => kept w holds

/-- Running a program keeps what holds after each run that was started. -/
theorem runProgram {program : Path} {call : Call}
    (kept : ∀ w reply after, property w → programs.run w.log program call w.files =
      .ok (reply, after) → property { w with files := after, log := w.log ++ [⟨call, reply⟩] }) :
    Keeps programs property (runProgram program call) := by
  intro w holds
  rw [on_runProgram]
  rcases ran : programs.run w.log program call w.files with error | ⟨reply, after⟩
  · exact holds
  · exact kept w reply after holds ran

/-- What each action of a list keeps is kept by all of them. -/
theorem forM {γ : Type} {action : γ → Action PUnit} {items : List γ}
    (kept : ∀ item ∈ items, Keeps programs property (action item)) :
    Keeps programs property (items.forM action) := by
  induction items with
  | nil => exact .pure _
  | cons item items ih =>
    obtain ⟨first, rest⟩ := List.forall_mem_cons.mp kept
    exact first.bind fun _ => ih rest

end Keeps

end Action

end ScriptLoom
