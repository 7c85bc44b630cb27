import ScriptLoom.Proofs.ProblemLines

/-! # The line of a refused struct

A struct that cannot be taken out of the user code is looked up in the script by its name, to be
reported where it is declared. The look-up wants the name and the opening brace to end a word
(`Record.Declares`), the reading of the struct does not, so a refused struct may be declared on no
line, and then it is reported on line zero (`Program.StructRefused.exists_diagnostic`). Everything
else that a script is refused for is on a line of the script: no diagnostic is behind the last
line, and all are on lines of the script exactly if the struct it is refused for, if any, is
declared on one (`Program.line_of_refused`).
-/

namespace ScriptLoom

namespace Text

/-! ### The first word -/

private theorem words_append_cons {c : Char} (blank : isBlank c = true) (s t : Text) :
    words (s ++ c :: t) = words s ++ words t := by
  rw [words, List.splitOnP_append_cons s t blank, List.filter_append]
  rfl

private theorem words_of_visible {token : Text} (nonempty : token ≠ [])
    (visible : ∀ c ∈ token, isBlank c = false) : words token = [token] := by
  have whole : token.splitOnP isBlank = [token] :=
    List.splitOnP_eq_singleton (by simpa using visible)
  rw [words, whole, List.filter_cons_of_pos (by simpa using nonempty), List.filter_nil]

private theorem words_blanks_append {blanks : Text} (blank : ∀ c ∈ blanks, isBlank c = true)
    (t : Text) :
    words (blanks ++ t) = words t := by
  induction blanks with
  | nil => rfl
  | cons c blanks ih =>
    obtain ⟨first, later⟩ := List.forall_mem_cons.mp blank
    rw [List.cons_append, ← List.nil_append (c :: _), words_append_cons first, ih later]
    rfl

private theorem head?_words_append {token rest : Text} (nonempty : token ≠ [])
    (visible : ∀ c ∈ token, isBlank c = false) (ends : ∀ c ∈ rest.head?, isBlank c = true) :
    (words (token ++ rest)).head? = some token := by
  cases rest with
  | nil => rw [List.append_nil, words_of_visible nonempty visible, List.head?_cons]
  | cons c rest =>
    rw [words_append_cons (ends c rfl), words_of_visible nonempty visible, List.cons_append,
      List.head?_cons]

private theorem head?_words_eq_some_iff {t token : Text} :
    t.words.head? = some token ↔
      ∃ blanks rest, t = blanks ++ (token ++ rest) ∧ (∀ c ∈ blanks, isBlank c = true) ∧
        token ≠ [] ∧ (∀ c ∈ token, isBlank c = false) ∧ ∀ c ∈ rest.head?, isBlank c = true := by
  constructor
  · intro first
    induction t with
    | nil => cases first
    | cons c t ih =>
      by_cases blank : isBlank c = true
      · rw [← List.nil_append (c :: t), words_append_cons blank] at first
        obtain ⟨blanks, rest, rfl, blank', found⟩ := ih first
        exact ⟨c :: blanks, rest, rfl, List.forall_mem_cons.mpr ⟨blank, blank'⟩, found⟩
      · have visible : ∀ d ∈ (c :: t).takeWhile (!isBlank ·), isBlank d = false := by
          intro d member
          simpa using List.mem_takeWhile_imp member
        have nonempty : (c :: t).takeWhile (!isBlank ·) ≠ [] := by simp [blank]
        have ends : ∀ d ∈ ((c :: t).dropWhile (!isBlank ·)).head?, isBlank d = true := by
          intro d head
          have stops := List.head?_dropWhile_not (!isBlank ·) (c :: t)
          rw [Option.mem_def.mp head] at stops
          simpa using stops
        have whole : (c :: t).takeWhile (!isBlank ·) ++ (c :: t).dropWhile (!isBlank ·) = c :: t :=
          List.takeWhile_append_dropWhile
        have own := head?_words_append nonempty visible ends
        rw [whole, first] at own
        cases own
        exact ⟨[], _, whole.symm, by simp, nonempty, visible, ends⟩
  · rintro ⟨blanks, rest, rfl, blank, nonempty, visible, ends⟩
    rw [words_blanks_append blank, head?_words_append nonempty visible ends]

private theorem dropEndWhile_eq_iff {p : Char → Bool} {t s : Text} :
    t.dropEndWhile p = s ↔
      ∃ rest, t = s ++ rest ∧ (∀ c ∈ rest, p c = true) ∧ ∀ c ∈ s.getLast?, p c = false := by
  constructor
  · rintro rfl
    refine ⟨t.rtakeWhile p, List.rdropWhile_append_rtakeWhile.symm,
      fun c => List.mem_rtakeWhile_imp, ?_⟩
    intro c last
    obtain ⟨nonempty, rfl⟩ := List.mem_getLast?_eq_getLast last
    exact Bool.eq_false_iff.mpr (List.rdropWhile_last_not p t nonempty)
  · rintro ⟨rest, rfl, holds, last⟩
    have stops : s.reverse.dropWhile p = s.reverse := by
      cases reversed : s.reverse with
      | nil => rfl
      | cons c front =>
        have ends : s.getLast? = some c := by rw [← List.head?_reverse, reversed]; rfl
        exact List.dropWhile_cons_of_neg (by simp [last c ends])
    rw [dropEndWhile, List.reverse_append, List.dropWhile_append_of_pos (by simpa using holds),
      stops, List.reverse_reverse]

end Text

namespace Record

open Text

/-! ### Lines that declare a struct -/

/-- A line that declares a struct: behind the keyword and blanks stands a word which is the name,
with any number of opening braces right behind it. -/
inductive Declares (name : Text) : Text → Prop
  | intro {blanks braces rest : Text} (blank : ∀ c ∈ blanks, isBlank c = true)
      (nonempty : name ++ braces ≠ []) (visible : ∀ c ∈ name ++ braces, isBlank c = false)
      (opening : ∀ c ∈ braces, c = '{') (bare : name.getLast? ≠ some '{')
      (ends : ∀ c ∈ rest.head?, isBlank c = true) :
      Declares name (Keyword.record ++ (blanks ++ (name ++ braces ++ rest)))

/-- Whether a struct is declared on a line of a script, comments apart. -/
def DeclaredOn (source name : Text) (n : Nat) : Prop :=
  ∃ line, (n, line) ∈ source.withoutComments.numberedLines ∧ Declares name line.trim

private theorem declares_iff {name line : Text} :
    Declares name line ↔ ∃ rest, dropPrefix? Keyword.record line = some rest ∧
      ∃ token, rest.words.head? = some token ∧ token.dropEndWhile (· = '{') = name := by
  constructor
  · rintro ⟨blank, nonempty, visible, opening, bare, ends⟩
    refine ⟨_, dropPrefix?_append _ _, _,
      head?_words_eq_some_iff.mpr ⟨_, _, rfl, blank, nonempty, visible, ends⟩, ?_⟩
    refine dropEndWhile_eq_iff.mpr ⟨_, rfl, by simpa using opening, ?_⟩
    intro c last
    refine decide_eq_false ?_
    rintro rfl
    exact bare last
  · rintro ⟨rest, dropped, token, first, trimmed⟩
    obtain rfl := dropPrefix?_eq_some dropped
    obtain ⟨blanks, after, rfl, blank, nonempty, visible, ends⟩ := head?_words_eq_some_iff.mp first
    obtain ⟨braces, rfl, opening, bare⟩ := dropEndWhile_eq_iff.mp trimmed
    refine .intro blank nonempty visible (by simpa using opening) ?_ ends
    intro last
    exact absurd (bare _ last) (by decide)

private theorem mem_linesDeclaring_iff {source name : Text} {n : Nat} :
    n ∈ linesDeclaring source name ↔ DeclaredOn source name n := by
  have found : ∀ (m : Nat) (line : Text), (do
      let rest ← dropPrefix? Keyword.record line.trim
      let token ← rest.words.head?
      if token.dropEndWhile (· = '{') = name then some m else none) = some n ↔
        m = n ∧ Declares name line.trim := by
    intro m line
    rw [declares_iff]
    simp only [Option.bind_eq_bind, Option.bind_eq_some_iff, Option.ite_none_right_eq_some,
      Option.some.injEq]
    constructor
    · rintro ⟨rest, dropped, token, first, trimmed, same⟩
      exact ⟨same, rest, dropped, token, first, trimmed⟩
    · rintro ⟨same, rest, dropped, token, first, trimmed⟩
      exact ⟨rest, dropped, token, first, trimmed, same⟩
  rw [linesDeclaring, List.mem_filterMap]
  constructor
  · rintro ⟨⟨m, line⟩, numbered, read⟩
    obtain ⟨rfl, declares⟩ := (found m line).mp read
    exact ⟨line, numbered, declares⟩
  · rintro ⟨line, numbered, declares⟩
    exact ⟨(n, line), numbered, (found n line).mpr ⟨rfl, declares⟩⟩

private theorem DeclaredOn.hasLine {source name : Text} {n : Nat}
    (declared : DeclaredOn source name n) :
    source.HasLine n := by
  obtain ⟨line, numbered, -⟩ := declared
  exact (hasLine_of_mem_numberedLines numbered).of_withoutComments

/-- A line to report a struct on: one that declares it, and zero if none does. -/
def ReportedOn (source name : Text) (line : Nat) : Prop :=
  DeclaredOn source name line ∨ line = 0 ∧ ∀ n, ¬DeclaredOn source name n

private theorem reportedOn_getD {source name : Text} {line : Option Nat}
    (listed : ∀ n ∈ line, n ∈ linesDeclaring source name)
    (found : line = none → linesDeclaring source name = []) :
    ReportedOn source name (line.getD 0) := by
  cases line with
  | some n => exact .inl (mem_linesDeclaring_iff.mp (listed n rfl))
  | none =>
    refine .inr ⟨rfl, fun n declared => ?_⟩
    have member := mem_linesDeclaring_iff.mpr declared
    rw [found rfl] at member
    cases member

private theorem reportedOn_lineDeclaring (source name : Text) :
    ReportedOn source name (lineDeclaring source name) :=
  reportedOn_getD (fun _ => List.mem_of_head?) List.head?_eq_none_iff.mp

private theorem ReportedOn.le {source name : Text} {line : Nat}
    (reported : ReportedOn source name line) :
    line ≤ source.lines.length := by
  rcases reported with declared | ⟨rfl, -⟩
  · exact declared.hasLine.2
  · exact Nat.zero_le _

private theorem ReportedOn.pos_iff {source name : Text} {line : Nat}
    (reported : ReportedOn source name line) : 1 ≤ line ↔ ∃ n, DeclaredOn source name n := by
  rcases reported with declared | ⟨rfl, nowhere⟩
  · exact ⟨fun _ => ⟨line, declared⟩, fun _ => declared.hasLine.1⟩
  · exact ⟨fun positive => absurd positive (by decide), fun ⟨n, found⟩ => absurd found (nowhere n)⟩

/-! ### Structs that are refused -/

/-- The name of the first struct of a text. -/
def firstName? (text : Text) : Option Text :=
  (findKeyword? true text.pieces).map fun found =>
    (takeCode isIdentChar (takeCode isGap found.2).2).1

private theorem exists_of_extractFirst_eq_error {text source : Text} {d : Diagnostic}
    (failed : extractFirst text source = .error d) :
    ∃ name problem, firstName? text = some name ∧
      d = Problem.onLine problem (lineDeclaring source name) := by
  unfold extractFirst at failed
  split at failed
  · cases failed
  · next before afterKeyword keyword =>
    have named : firstName? text =
        some (takeCode isIdentChar (takeCode isGap afterKeyword).2).1 := by
      rw [firstName?, keyword]
      rfl
    refine ⟨(takeCode isIdentChar (takeCode isGap afterKeyword).2).1, ?_⟩
    dsimp only at failed
    split at failed
    · cases failed
      exact ⟨_, named, rfl⟩
    · split at failed
      · split at failed
        · cases failed
          exact ⟨_, named, rfl⟩
        · cases failed
      · cases failed
        exact ⟨_, named, rfl⟩

variable {className source : Text} {records : List Record} {text name : Text}

/-- Taking the structs out of a text, after some records, is refused at a struct of a name: one
without a block behind its name, or one whose name is taken. -/
inductive Refuses (className source : Text) : List Record → Text → Text → Prop
  | malformed {records : List Record} {text name : Text} {d : Diagnostic}
      (named : firstName? text = some name) (failed : extractFirst text source = .error d) :
      Refuses className source records text name
  | taken {records : List Record} {text : Text} {found : Extraction}
      (extracted : extractFirst text source = .ok (some found))
      (known : found.record.name = className ∨
        ∃ record ∈ records, record.name = found.record.name) :
      Refuses className source records text found.record.name
  | later {records : List Record} {text name : Text} {found : Extraction}
      (extracted : extractFirst text source = .ok (some found))
      (other : found.record.name ≠ className)
      (fresh : ∀ record ∈ records, record.name ≠ found.record.name)
      (rest : Refuses className source (records ++ [found.record]) (found.before ++ found.after)
        name) :
      Refuses className source records text name

private theorem exists_refuses_of_extractAll {d : Diagnostic}
    (failed : extractAll className source records text = .error d) :
    ∃ name, Refuses className source records text name := by
  fun_induction extractAll className source records text with
  | case1 records text problem first =>
    obtain ⟨name, problem, named, -⟩ := exists_of_extractFirst_eq_error first
    exact ⟨name, .malformed named first⟩
  | case2 => cases failed
  | case3 records text found first name lines known =>
    have known' : ∃ record ∈ records, record.name = found.record.name := by
      simpa using known
    exact ⟨_, .taken first (.inr known')⟩
  | case4 records text found first name lines _ own =>
    exact ⟨_, .taken first (.inl own)⟩
  | case5 records text found first name fresh other ih =>
    obtain ⟨name, rest⟩ := ih failed
    exact ⟨name, .later first other (by simpa using fresh) rest⟩

/-- A struct that is found is refused if its name is taken or reserved, and is else taken out. -/
theorem extractAll_of_extractFirst {found : Extraction}
    (extracted : extractFirst text source = .ok (some found)) :
    extractAll className source records text =
      if records.any (·.name = found.record.name) then
        .error ((Problem.repeatedStruct found.record.name).onLine
          (((linesDeclaring source found.record.name)[1]?.orElse
            fun _ => (linesDeclaring source found.record.name).head?).getD 0))
      else if found.record.name = className then
        .error ((Problem.reserved found.record.name).onLine
          (lineDeclaring source found.record.name))
      else extractAll className source (records ++ [found.record])
        (found.before ++ found.after) := by
  rw [extractAll]
  split
  · next failed => rw [extracted] at failed; cases failed
  · next none => rw [extracted] at none; cases none
  · next own extracted' =>
    rw [extracted] at extracted'
    cases extracted'
    rfl

private theorem mem_second_or_first (lines : List Nat) :
    (∀ n ∈ lines[1]?.orElse fun _ => lines.head?, n ∈ lines) ∧
      ((lines[1]?.orElse fun _ => lines.head?) = none → lines = []) := by
  rcases lines with _ | ⟨first, _ | ⟨second, rest⟩⟩ <;> simp

/-- A refused struct is reported on a line that declares it. -/
theorem Refuses.exists_problem (refuses : Refuses className source records text name) :
    ∃ problem line, extractAll className source records text =
      .error (Problem.onLine problem line) ∧ ReportedOn source name line := by
  induction refuses with
  | @malformed records text name d named failed =>
    obtain ⟨name', problem, named', rfl⟩ := exists_of_extractFirst_eq_error failed
    rw [named] at named'
    cases named'
    refine ⟨problem, _, ?_, reportedOn_lineDeclaring source name⟩
    rw [extractAll]
    split
    · next own =>
      rw [failed] at own
      cases own
      rfl
    · next own => rw [failed] at own; cases own
    · next own => rw [failed] at own; cases own
  | @taken records text found extracted known =>
    rw [extractAll_of_extractFirst extracted]
    split
    · obtain ⟨listed, found⟩ := mem_second_or_first (linesDeclaring source found.record.name)
      exact ⟨_, _, rfl, reportedOn_getD listed found⟩
    · next fresh =>
      rcases known with own | recorded
      · rw [if_pos own]
        exact ⟨_, _, rfl, reportedOn_lineDeclaring _ _⟩
      · exact absurd (by simpa using recorded) fresh
  | @later records text name found extracted other fresh rest ih =>
    rw [extractAll_of_extractFirst extracted, if_neg (by simpa using fresh), if_neg other]
    exact ih

end Record

/-- Taking the structs out of slots is refused at a struct of a name. -/
inductive SourceUnit.Refuses (className source : Text) :
    List Record → SourceUnit → List Slot → Text → Prop
  | here {records : List Record} {unit : SourceUnit} {slot : Slot} {slots : List Slot} {name : Text}
      (refuses : Record.Refuses className source records (unit.get slot) name) :
      Refuses className source records unit (slot :: slots) name
  | later {records taken : List Record} {unit : SourceUnit} {slot : Slot} {slots : List Slot}
      {name left : Text}
      (extracted : Record.extractAll className source records (unit.get slot) = .ok (taken, left))
      (rest : Refuses className source taken (unit.fill slot left) slots name) :
      Refuses className source records unit (slot :: slots) name

namespace SourceUnit

variable {className source : Text} {records : List Record} {unit : SourceUnit} {slots : List Slot}

private theorem exists_refuses_of_extractFromSlots {d : Diagnostic}
    (failed : (extractFromSlots className source records unit slots).1 = .error d) :
    ∃ name, Refuses className source records unit slots name := by
  induction slots generalizing records unit with
  | nil => cases failed
  | cons slot slots ih =>
    rw [extractFromSlots] at failed
    cases extracted : Record.extractAll className source records (unit.get slot) with
    | error problem =>
      obtain ⟨name, refuses⟩ := Record.exists_refuses_of_extractAll extracted
      exact ⟨name, .here refuses⟩
    | ok result =>
      rw [extracted] at failed
      obtain ⟨name, rest⟩ := ih failed
      exact ⟨name, .later extracted rest⟩

private theorem Refuses.exists_problem {name : Text}
    (refuses : Refuses className source records unit slots name) :
    ∃ problem line, (extractFromSlots className source records unit slots).1 =
      .error (Problem.onLine problem line) ∧ Record.ReportedOn source name line := by
  induction refuses with
  | here refuses =>
    obtain ⟨problem, line, failed, reported⟩ := refuses.exists_problem
    exact ⟨problem, line, by rw [extractFromSlots, failed], reported⟩
  | later extracted rest ih =>
    rw [extractFromSlots, extracted]
    exact ih

end SourceUnit

namespace Program

/-- A script without problems is refused for a struct of a name. -/
def StructRefused (text : Text) (fileName : Path) (catalog : Catalog) (name : Text) : Prop :=
  (problemsIn text catalog).isEmpty = true ∧
    ∃ r script, text.expandAll = .ok r ∧ Script.ofText r catalog = .ok script ∧
      SourceUnit.Refuses fileName.className text []
        (script.compose fileName.className catalog).unit Slot.userCode name

variable {text : Text} {fileName : Path} {catalog : Catalog}

private theorem StructRefused.exists_diagnostic {name : Text}
    (refused : StructRefused text fileName catalog name) :
    ∃ problem line, ofScript text fileName catalog =
      .error (.ofList [Problem.onLine problem line]) ∧ Record.ReportedOn text name line := by
  obtain ⟨quiet, r, script, expanded, taken, refuses⟩ := refused
  obtain ⟨problem, line, failed, reported⟩ := refuses.exists_problem
  refine ⟨problem, line, ?_, reported⟩
  have sound : ofSound text fileName.className catalog = .error (problem.onLine line) := by
    unfold ofSound
    rw [expanded]
    change (Script.ofText r catalog >>= _) = _
    rw [taken]
    change ((takeRecords _ _ _).1 >>= _) = _
    rw [takeRecords, failed]
    rfl
  rw [ofScript, if_pos quiet, sound]
  rfl

/-- The struct that a script is refused for is what the script is refused with. -/
theorem StructRefused.exists_single {name : Text} {ds : Diagnostics}
    (own : StructRefused text fileName catalog name)
    (refused : ofScript text fileName catalog = .error ds) :
    ∃ d, ds.toList = [d] ∧ Record.ReportedOn text name d.line := by
  obtain ⟨problem, line, failed, reported⟩ := own.exists_diagnostic
  rw [refused] at failed
  cases failed
  exact ⟨_, rfl, reported⟩

/-- What a script is refused for: its problems, a function that is not closed, or a struct. -/
theorem cases_of_ofScript_eq_error {ds : Diagnostics}
    (refused : ofScript text fileName catalog = .error ds) :
    ((problemsIn text catalog).isEmpty = false ∧ ds = problemsIn text catalog) ∨
      (∃ r d, text.Settled ∧ text.expandAll = .ok r ∧ Script.ofText r catalog = .error d ∧
        ds = .ofList [d]) ∨
      ∃ name, StructRefused text fileName catalog name := by
  rw [ofScript] at refused
  split at refused
  · next quiet =>
    right
    have settled := Text.settled_of_problemsIn quiet
    obtain ⟨r, expanded, -⟩ := settled.exists_settled_expandAll
    unfold ofSound at refused
    rw [expanded] at refused
    change Except.mapError _ (Script.ofText r catalog >>= _) = _ at refused
    cases taken : Script.ofText r catalog with
    | error d =>
      rw [taken] at refused
      cases refused
      exact .inl ⟨r, d, settled, expanded, taken, rfl⟩
    | ok script =>
      rw [taken] at refused
      change Except.mapError _ ((takeRecords _ _ _).1 >>= _) = _ at refused
      cases extracted : (takeRecords (script.compose fileName.className catalog).unit
          fileName.className text).1 with
      | error d =>
        obtain ⟨name, refuses⟩ := SourceUnit.exists_refuses_of_extractFromSlots extracted
        exact .inr ⟨name, quiet, r, script, expanded, taken, refuses⟩
      | ok records =>
        rw [extracted] at refused
        cases refused
  · next problems =>
    cases refused
    exact .inl ⟨by simpa using problems, rfl⟩

/-- **The diagnostics of a refused script are on its lines, but for a struct that no line
declares.** None is behind the last line, and all are on lines exactly if the struct that the
script is refused for, if it is refused for one, is declared on a line. -/
theorem line_of_refused {ds : Diagnostics} (refused : ofScript text fileName catalog = .error ds) :
    (∀ d ∈ ds.toList, d.line ≤ text.lines.length) ∧
      ((∀ d ∈ ds.toList, 1 ≤ d.line) ↔
        ∀ name, StructRefused text fileName catalog name →
          ∃ n, Record.DeclaredOn text name n) := by
  have onLines : (∀ d ∈ ds.toList, text.HasLine d.line) →
      (∀ name, ¬StructRefused text fileName catalog name) →
        (∀ d ∈ ds.toList, d.line ≤ text.lines.length) ∧
          ((∀ d ∈ ds.toList, 1 ≤ d.line) ↔
            ∀ name, StructRefused text fileName catalog name →
              ∃ n, Record.DeclaredOn text name n) := by
    intro has other
    refine ⟨fun d member => (has d member).2, ?_⟩
    exact ⟨fun _ name own => absurd own (other name), fun _ d member => (has d member).1⟩
  rcases cases_of_ofScript_eq_error refused with
    ⟨problems, rfl⟩ | ⟨r, d, settled, expanded, failed, rfl⟩ | ⟨name, own⟩
  · apply onLines
    · exact fun d => hasLine_of_mem_problemsIn
    · rintro name ⟨quiet, -⟩
      rw [problems] at quiet
      cases quiet
  · apply onLines
    · intro d' member
      obtain rfl := List.mem_singleton.mp (Diagnostics.mem_of_mem_ofList member)
      exact Script.hasLine_of_ofText_eq_error settled expanded failed
    · rintro name ⟨-, r', script, expanded', taken, -⟩
      rw [expanded] at expanded'
      cases expanded'
      rw [failed] at taken
      cases taken
  · obtain ⟨d, single, line⟩ := own.exists_single refused
    rw [single]
    simp only [List.mem_singleton, forall_eq]
    refine ⟨line.le, ?_, fun declared => line.pos_iff.mpr (declared name own)⟩
    intro positive name' own'
    obtain ⟨d', single', line'⟩ := own'.exists_single refused
    obtain rfl : d = d' := List.singleton_inj.mp (single.symm.trans single')
    exact line'.pos_iff.mp positive

/-- A struct declared twice, the second time with the brace right behind its name. -/
theorem line_of_twin :
    let text : Text := "x();\nstruct Twin \x7b int a; \x7d\nstruct Twin\x7b\nint b; \x7d"
    let ds : Diagnostics := ⟨[(Problem.repeatedStruct "Twin").onLine 3]⟩
    ofScript text "Main.auto" .empty = .error ds ∧
      (∀ d ∈ ds.toList, d.line ≤ text.lines.length) ∧
      ∀ name, StructRefused text "Main.auto" .empty name → ∃ n, Record.DeclaredOn text name n := by
  intro text ds
  have refused : ofScript text "Main.auto" .empty = .error ds := by decide +kernel
  obtain ⟨bounded, declared⟩ := line_of_refused refused
  exact ⟨refused, bounded, declared.mp (by decide)⟩

/-- A struct with a field right behind its brace is declared on no line. -/
theorem line_zero_of_adjoining_field :
    ofScript "struct Main\x7bint x;\x7d" "Main.auto" .empty =
      .error ⟨[(Problem.reserved "Main").onLine 0]⟩ := by
  decide +kernel

end Program

end ScriptLoom
