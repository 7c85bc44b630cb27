import ScriptLoom.CompilerMessage
import ScriptLoom.Proofs.ItemBraces

/-! # The messages in the output of the compiler

A line of the output is due a message if it is a header, or if it is a message about no file and
does not stand right behind a header, where it is taken for the source line. The reader gives
exactly the messages that are due, in the order of their lines
(`CompilerMessage.due_lines_reported`), and at every header it starts afresh: what was read so
far is complete (`CompilerMessage.Stage.run_append_header`).
-/

namespace ScriptLoom

namespace CompilerMessage

/-! ### Words for the severity -/

section Words

variable {words : List (String × Severity)}

/-- A text is read with the one word that it starts with. -/
theorem splitSeverity?_eq_some_iff (plain : ∀ entry ∈ words, ':' ∉ entry.1.toList)
    (distinct : ∀ entry ∈ words, ∀ other ∈ words, entry.1.toList = other.1.toList → entry = other)
    {t rest : Text} {severity : Severity} :
    splitSeverity? words t = some (severity, rest) ↔
      ∃ word : String, (word, severity) ∈ words ∧ t = word ++ ([':', ' '] ++ rest) := by
  constructor
  · intro split
    obtain ⟨⟨word, kind⟩, member, found⟩ := List.exists_of_findSome?_eq_some split
    obtain ⟨own, dropped, equal⟩ := Option.map_eq_some_iff.mp found
    cases equal
    exact ⟨word, member, by rw [Text.dropPrefix?_eq_some dropped, List.append_assoc]⟩
  · rintro ⟨word, member, rfl⟩
    cases split : splitSeverity? words (word ++ ([':', ' '] ++ rest)) with
    | none =>
      have missed := List.findSome?_eq_none_iff.mp split _ member
      dsimp only at missed
      rw [← List.append_assoc, Text.dropPrefix?_append] at missed
      cases missed
    | some found =>
      obtain ⟨⟨other, kind⟩, listed, own⟩ := List.exists_of_findSome?_eq_some split
      obtain ⟨behind, dropped, rfl⟩ := Option.map_eq_some_iff.mp own
      have joined := Text.dropPrefix?_eq_some dropped
      rw [List.append_assoc] at joined
      -- both words end at the first colon
      have same : word.toList = other.toList :=
        (eq_of_append_cons (plain _ member) (plain _ listed) joined).1
      cases distinct _ member _ listed same
      cases List.append_cancel_left joined
      rfl

end Words

private theorem splitSeverity?_headerWords {t rest : Text} {severity : Severity} :
    splitSeverity? headerWords t = some (severity, rest) ↔
      ∃ word : String, (word, severity) ∈ headerWords ∧ t = word ++ (": " ++ rest) :=
  splitSeverity?_eq_some_iff (by decide) (by decide)

/-! ### Header lines -/

/-- A reading of a line as a header: a file, the digits of a line number, a severity and the
message. -/
structure ReadsAs (line file digits : Text) (h : Header) : Prop where
  named : file ≠ []
  numbered : digits ≠ []
  decimal : ∀ c ∈ digits, Text.isDecimal c = true
  value : h.line = digitsValue digits
  column : h.column = 0
  spelled : ∃ word : String, (word, h.severity) ∈ headerWords ∧
    line = file ++ ".java:" ++ digits ++ ": " ++ word ++ ": " ++ h.message

private theorem headerAtExtension?_eq_some_iff {file t : Text} (named : file ≠ []) {h : Header} :
    headerAtExtension? t = some h ↔ ∃ digits, ReadsAs (file ++ t) file digits h := by
  unfold headerAtExtension?
  constructor
  · intro read
    obtain ⟨rest, extension, read⟩ := Option.bind_eq_some_iff.mp read
    dsimp only at read
    split at read
    · cases read
    · next numbered =>
      obtain ⟨behind, colon, read⟩ := Option.bind_eq_some_iff.mp read
      obtain ⟨⟨severity, message⟩, split, made⟩ := Option.bind_eq_some_iff.mp read
      cases made
      obtain ⟨word, listed, rfl⟩ := splitSeverity?_headerWords.mp split
      refine ⟨_, named, numbered, fun c => List.mem_takeWhile_imp, rfl, rfl, word, listed, ?_⟩
      have divided := List.takeWhile_append_dropWhile (p := Text.isDecimal) (l := rest)
      rw [Text.dropPrefix?_eq_some colon] at divided
      rw [Text.dropPrefix?_eq_some extension]
      conv_lhs => rw [← divided]
      simp
  · rintro ⟨digits, -, numbered, decimal, value, column, word, listed, spelled⟩
    obtain ⟨line, severity, message, col⟩ := h
    dsimp only at value column spelled
    subst value column
    simp only [List.append_assoc, List.append_cancel_left_eq] at spelled
    subst spelled
    have behind : (": " ++ (word ++ (": " ++ message)) : Text) =
      ':' :: (' ' :: (word.toList ++ (": " ++ message))) := rfl
    have stops : Text.isDecimal ':' = false := by decide
    rw [Text.dropPrefix?_append, Option.bind_eq_bind, Option.bind_some]
    dsimp only
    rw [List.takeWhile_append_of_pos decimal, List.dropWhile_append_of_pos decimal, behind,
      List.takeWhile_cons_of_neg (by simp [stops]), List.dropWhile_cons_of_neg (by simp [stops]),
      List.append_nil, if_neg numbered, ← behind, Text.dropPrefix?_append, Option.bind_some,
      splitSeverity?_headerWords.mpr ⟨word, listed, rfl⟩]
    rfl

private theorem ReadsAs.exists_extension {line file digits : Text} {h : Header}
    (reads : ReadsAs line file digits h) :
    ∃ back, line = file ++ back ∧ headerAtExtension? back = some h := by
  obtain ⟨word, -, spelled⟩ := reads.spelled
  simp only [List.append_assoc] at spelled
  exact ⟨_, spelled, (headerAtExtension?_eq_some_iff reads.named).mpr ⟨digits, spelled ▸ reads⟩⟩

private theorem lastHeader?_eq_none_iff {t : Text} :
    lastHeader? t = none ↔ ∀ front back, t = front ++ back → headerAtExtension? back = none := by
  induction t with
  | nil =>
    refine ⟨fun _ front back whole => ?_, fun _ => rfl⟩
    rw [(List.append_eq_nil_iff.mp whole.symm).2]
    rfl
  | cons c t ih =>
    rw [lastHeader?]
    constructor
    · intro missing front back whole
      cases later : lastHeader? t with
      | some h => simp [later] at missing
      | none =>
        rw [later] at missing
        cases front with
        | nil => rwa [whole] at missing
        | cons d front =>
          cases whole
          exact ih.mp later front back rfl
    · intro missing
      rw [ih.mpr fun front back whole => missing (c :: front) back (by rw [whole]; rfl)]
      exact missing [] (c :: t) rfl

/-- The header that is found has the longest text before it. -/
theorem exists_of_lastHeader? {t : Text} {h : Header} (found : lastHeader? t = some h) :
    ∃ front back, t = front ++ back ∧ headerAtExtension? back = some h ∧
      ∀ front' back', t = front' ++ back' → front.length < front'.length →
        headerAtExtension? back' = none := by
  induction t with
  | nil => cases found
  | cons c t ih =>
    rw [lastHeader?] at found
    cases later : lastHeader? t with
    | some own =>
      rw [later] at found
      cases found
      obtain ⟨front, back, whole, read, longest⟩ := ih later
      refine ⟨c :: front, back, by rw [whole]; rfl, read, ?_⟩
      rintro (_ | ⟨d, front'⟩) back' whole' longer
      · cases longer
      · cases whole'
        exact longest front' back' rfl (Nat.lt_of_succ_lt_succ longer)
    | none =>
      rw [later] at found
      refine ⟨[], c :: t, rfl, found, ?_⟩
      rintro (_ | ⟨d, front'⟩) back' whole' longer
      · cases longer
      · cases whole'
        exact lastHeader?_eq_none_iff.mp later front' back' rfl

/-- What a header line is: the line read with the longest name of a file. -/
def IsHeader (line : Text) (h : Header) : Prop :=
  ∃ file digits, ReadsAs line file digits h ∧
    ∀ file' digits' h', ReadsAs line file' digits' h' → file'.length ≤ file.length

private theorem header?_eq_some_iff {line : Text} {h : Header} :
    header? line = some h ↔ IsHeader line h := by
  have exact_of_found {h : Header} (found : header? line = some h) : IsHeader line h := by
    cases line with
    | nil => cases found
    | cons c t =>
      obtain ⟨front, back, rfl, read, longest⟩ := exists_of_lastHeader? found
      obtain ⟨digits, reads⟩ :=
        (headerAtExtension?_eq_some_iff (List.cons_ne_nil c front)).mp read
      refine ⟨c :: front, digits, reads, fun file' digits' h' reads' => ?_⟩
      by_contra longer
      obtain ⟨back', whole, read'⟩ := reads'.exists_extension
      cases file' with
      | nil => exact reads'.named rfl
      | cons d front' =>
        have missed := longest front' back' (List.cons.inj whole).2 (by simpa using longer)
        rw [missed] at read'
        cases read'
  refine ⟨exact_of_found, ?_⟩
  rintro ⟨file, digits, reads, longest⟩
  obtain ⟨back, whole, read⟩ := reads.exists_extension
  cases found : header? line with
  | none =>
    cases file with
    | nil => exact absurd rfl reads.named
    | cons c front =>
      subst whole
      rw [lastHeader?_eq_none_iff.mp found front back rfl] at read
      cases read
  | some own =>
    -- both readings have the longest name, so they read the same extension
    obtain ⟨file', digits', reads', longest'⟩ := exact_of_found found
    obtain ⟨back', whole', read'⟩ := reads'.exists_extension
    have sameLength : file.length = file'.length :=
      Nat.le_antisymm (longest' _ _ _ reads) (longest _ _ _ reads')
    obtain ⟨-, rfl⟩ := List.append_inj (whole.symm.trans whole') sameLength
    rw [← read', read]

/-- What a message about no file is: a severity and the text behind it. -/
def IsBare (line : Text) (m : CompilerMessage) : Prop :=
  m.position = none ∧
    ∃ word : String, (word, m.severity) ∈ bareWords ∧ line = word ++ (": " ++ m.message)

private theorem bare?_eq_some_iff {line : Text} {m : CompilerMessage} :
    bare? line = some m ↔ IsBare line m := by
  have words {severity : Severity} {rest : Text} :
      splitSeverity? bareWords line = some (severity, rest) ↔
        ∃ word : String, (word, severity) ∈ bareWords ∧ line = word ++ (": " ++ rest) :=
    splitSeverity?_eq_some_iff (by decide) (by decide)
  rw [bare?, Option.map_eq_some_iff]
  constructor
  · rintro ⟨⟨severity, rest⟩, split, rfl⟩
    exact ⟨rfl, words.mp split⟩
  · rintro ⟨unplaced, spelled⟩
    obtain ⟨position, severity, message⟩ := m
    cases unplaced
    exact ⟨(severity, message), words.mpr spelled, rfl⟩

/-- A caret line has no other visible character. -/
theorem columnOfCaret?_eq_none {line : Text} {c : Char} (member : c ∈ line)
    (visible : Text.isBlank c = false) (other : c ≠ '^') : columnOfCaret? line = none := by
  refine if_neg fun caret => ?_
  obtain ⟨before, after, whole, blank, blank'⟩ := Text.exists_eq_append_trim line
  rw [whole, caret, List.mem_append, List.mem_append] at member
  rcases member with early | inside | late
  · rw [blank c early] at visible
    cases visible
  · exact other (List.mem_singleton.mp inside)
  · rw [blank' c late] at visible
    cases visible

private theorem IsHeader.columnOfCaret? {line : Text} {h : Header} (header : IsHeader line h) :
    columnOfCaret? line = none := by
  obtain ⟨file, digits, reads, -⟩ := header
  obtain ⟨word, -, spelled⟩ := reads.spelled
  have colon : ':' ∈ line := by rw [spelled]; simp
  exact columnOfCaret?_eq_none colon (by decide) (by decide)

private theorem IsBare.columnOfCaret? {line : Text} {m : CompilerMessage} (bare : IsBare line m) :
    columnOfCaret? line = none := by
  obtain ⟨-, word, -, spelled⟩ := bare
  have colon : ':' ∈ line := by rw [spelled]; simp
  exact columnOfCaret?_eq_none colon (by decide) (by decide)

/-- A message about no file does not start with a blank. -/
theorem IsBare.isBlank_head? {line : Text} {m : CompilerMessage} (bare : IsBare line m) :
    line.head?.any Text.isBlank = false := by
  obtain ⟨-, word, listed, rfl⟩ := bare
  have visible : ∀ entry ∈ bareWords,
      entry.1.toList.head?.isSome = true ∧ entry.1.toList.head?.any Text.isBlank = false := by
    decide
  obtain ⟨nonempty, visible⟩ := visible _ listed
  obtain ⟨c, first⟩ := Option.isSome_iff_exists.mp nonempty
  rw [List.head?_append, first, Option.some_or, ← first]
  exact visible

/-! ### The messages that are due -/

/-- Whether a line stands right behind a header. -/
def behindHeader (previous : Option Text) : Bool :=
  previous.any fun line => (header? line).isSome

/-- A line if it is due a message: a header always is, a message about no file unless the line
before is a header. -/
def dueLine (previous : Option Text) (line : Text) : List Text :=
  if (header? line).isSome || (bare? line).isSome && !behindHeader previous then [line] else []

/-- The lines that are due a message, given the line before them. -/
def due (previous : Option Text) : List Text → List Text
  | [] => []
  | line :: lines => dueLine previous line ++ due (some line) lines

/-- Whether a message is that of a line. The message of a header has its severity, is about its
line and begins with its text. -/
inductive Reports (source line : Text) : CompilerMessage → Prop
  | header {h : Header} (own : header? line = some h) (column : Nat) (further : List Text) :
    Reports source line
      ⟨positionOf? source h.line column, h.severity, Text.unlines (h.message :: further)⟩
  | bare {m : CompilerMessage} (noHeader : header? line = none) (own : bare? line = some m) :
    Reports source line m

/-- Whether what was read of a message goes back to the header on a line: lines have been added to
its text at most, and the column may be known. -/
def Header.BegunAt (h : Header) (line : Text) : Prop :=
  ∃ own column further, header? line = some own ∧
    h = ⟨own.line, own.severity, Text.unlines (own.message :: further), column⟩

namespace Header.BegunAt

variable {h : Header} {line : Text}

private theorem of_header? (own : header? line = some h) : h.BegunAt line :=
  ⟨h, h.column, [], own, by rw [Text.unlines_singleton]⟩

private theorem setColumn (begun : h.BegunAt line) (column : Nat) :
    Header.BegunAt { h with column := column } line := by
  obtain ⟨own, -, further, header, rfl⟩ := begun
  exact ⟨own, column, further, header, rfl⟩

private theorem extend (begun : h.BegunAt line) (more : Text) :
    Header.BegunAt { h with message := h.message ++ '\n' :: more } line := by
  obtain ⟨own, column, further, header, rfl⟩ := begun
  refine ⟨own, column, further ++ [more], header, ?_⟩
  rw [← List.cons_append, Text.unlines_append (by simp) (by simp), Text.unlines_singleton]

private theorem reports (begun : h.BegunAt line) (source : Text) :
    Reports source line ⟨positionOf? source h.line h.column, h.severity, h.message⟩ := by
  obtain ⟨own, column, further, header, rfl⟩ := begun
  exact .header header column further

end Header.BegunAt

namespace Stage

/-- The lines whose message a stage has begun: none, or the one with the header. A source line can
only be awaited right behind it. -/
inductive Owes (previous : Option Text) : Stage → List Text → Prop
  | idle (apart : behindHeader previous = false) : Owes previous .idle []
  | echo {line : Text} {h : Header} (last : previous = some line) (own : header? line = some h) :
    Owes previous (.echo h) [line]
  | caret {line : Text} {h : Header} (begun : h.BegunAt line)
    (apart : behindHeader previous = false) : Owes previous (.caret h) [line]
  | further {line : Text} {h : Header} (begun : h.BegunAt line)
    (apart : behindHeader previous = false) : Owes previous (.further h) [line]

variable {source line : Text} {previous : Option Text} {owed : List Text}

/-- A line that belongs to no message before it is reported if it is due. -/
theorem start_reports (source : Text)
    (apart : (header? line).isSome = true ∨ behindHeader previous = false) :
    ∃ told owed', dueLine previous line = told ++ owed' ∧
      List.Forall₂ (Reports source) told (start line).1 ∧
      Owes (some line) (start line).2 owed' := by
  rw [start]
  cases header : header? line with
  | some h =>
    refine ⟨[], [line], ?_, .nil, .echo rfl header⟩
    rw [dueLine, header]
    rfl
  | none =>
    have apart' : behindHeader previous = false := by simpa [header] using apart
    have next : behindHeader (some line) = false := by simp [behindHeader, header]
    cases bare : bare? line with
    | some m =>
      refine ⟨[line], [], ?_, .cons (.bare header bare) .nil, .idle next⟩
      simp [dueLine, header, bare, apart']
    | none =>
      refine ⟨[], [], ?_, .nil, .idle next⟩
      simp [dueLine, header, bare]

/-- A line behind the caret of a message completes the message or is part of it. -/
theorem extend_reports {h : Header} {first : Text} (source : Text) (begun : h.BegunAt first)
    (apart : (header? line).isSome = true ∨ behindHeader previous = false) :
    ∃ told owed', first :: dueLine previous line = told ++ owed' ∧
      List.Forall₂ (Reports source) told (extend source h line).1 ∧
      Owes (some line) (extend source h line).2 owed' := by
  rw [extend]
  split
  · obtain ⟨told, owed', split, reported, owes⟩ := start_reports source apart
    exact ⟨first :: told, owed', by rw [split]; rfl, .cons (begun.reports source) reported, owes⟩
  · next inside =>
    simp only [Bool.or_eq_true, Bool.not_eq_true', not_or, Bool.not_eq_true, Bool.not_eq_false]
      at inside
    obtain ⟨⟨noHeader, -⟩, blank⟩ := inside
    have noBare : bare? line = none := by
      cases bare : bare? line with
      | none => rfl
      | some m =>
        rw [(bare?_eq_some_iff.mp bare).isBlank_head?] at blank
        cases blank
    have apart' : behindHeader (some line) = false := by simp [behindHeader, noHeader]
    refine ⟨[], [first], ?_, .nil, .further (begun.extend _) apart'⟩
    simp [dueLine, noHeader, noBare]

/-- One line: what was owed and what the line is due is told or owed behind it. -/
theorem Owes.step {stage : Stage} (owes : Owes previous stage owed) (source line : Text) :
    ∃ told owed', owed ++ dueLine previous line = told ++ owed' ∧
      List.Forall₂ (Reports source) told (stage.step source line).1 ∧
      Owes (some line) (stage.step source line).2 owed' := by
  cases owes with
  | idle apart => exact start_reports source (.inr apart)
  | @echo first h last own =>
    subst last
    rw [Stage.step]
    split
    · next header => exact extend_reports source (.of_header? own) (.inl header)
    · next noHeader =>
      have apart : behindHeader (some line) = false := by simpa [behindHeader] using noHeader
      refine ⟨[], [first], ?_, .nil, .caret (.of_header? own) apart⟩
      simp [dueLine, behindHeader, own, noHeader]
  | @caret first h begun apart =>
    rw [Stage.step]
    split
    · next column caret =>
      have noHeader : header? line = none := by
        cases header : header? line with
        | none => rfl
        | some own =>
          rw [(header?_eq_some_iff.mp header).columnOfCaret?] at caret
          cases caret
      have noBare : bare? line = none := by
        cases bare : bare? line with
        | none => rfl
        | some m =>
          rw [(bare?_eq_some_iff.mp bare).columnOfCaret?] at caret
          cases caret
      have apart' : behindHeader (some line) = false := by simp [behindHeader, noHeader]
      refine ⟨[], [first], ?_, .nil, .further (begun.setColumn column) apart'⟩
      simp [dueLine, noHeader, noBare]
    · exact extend_reports source begun (.inr apart)
  | further begun apart => exact extend_reports source begun (.inr apart)

/-- All lines: every message that is owed or due is given, in order. -/
theorem Owes.run {stage : Stage} (owes : Owes previous stage owed) (source : Text)
    (lines : List Text) :
    List.Forall₂ (Reports source) (owed ++ due previous lines) (stage.run source lines) := by
  induction lines generalizing stage previous owed with
  | nil =>
    rw [due, List.append_nil]
    cases owes with
    | idle _ => exact .nil
    | echo _ own => exact .cons (Header.BegunAt.of_header? own |>.reports source) .nil
    | caret begun _ => exact .cons (begun.reports source) .nil
    | further begun _ => exact .cons (begun.reports source) .nil
  | cons line lines ih =>
    obtain ⟨told, owed', split, reported, next⟩ := owes.step source line
    rw [due, ← List.append_assoc, split, List.append_assoc]
    exact List.rel_append reported (ih next)

/-! ### Headers start afresh -/

private theorem step_of_header? {h : Header} (header : header? line = some h) (source : Text)
    (stage : Stage) : stage.step source line = (stage.finish source, .echo h) := by
  have begins : start line = ([], .echo h) := by rw [start, header]
  have extends' (own : Header) :
      extend source own line = ((Stage.further own).finish source, .echo h) := by
    rw [extend, header, begins]
    simp
  cases stage with
  | idle => exact begins
  | echo own =>
    rw [Stage.step, header, if_pos Option.isSome_some]
    exact extends' own
  | caret own =>
    rw [Stage.step, (header?_eq_some_iff.mp header).columnOfCaret?]
    exact extends' own
  | further own => exact extends' own

/-- At a header the lines before it have been read to the end. -/
theorem run_append_header {h : Header} (header : header? line = some h) (source : Text)
    (stage : Stage) (before after : List Text) :
    stage.run source (before ++ line :: after) =
      stage.run source before ++ (Stage.echo h).run source after := by
  induction before generalizing stage with
  | nil =>
    change (stage.step source line).1 ++ (stage.step source line).2.run source after = _
    rw [step_of_header? header]
    rfl
  | cons first before ih =>
    rw [List.cons_append, Stage.run, Stage.run, ih, List.append_assoc]

end Stage

/-- **No message of the compiler is lost.** A line is read as a header or as a message about no
file exactly if it has that form. The messages of an output are those of the lines that are due
one, in order, and a header ends whatever was read before it: no header becomes a source line, a
caret line or the continuation of a message. -/
theorem due_lines_reported :
    (∀ line h, header? line = some h ↔ IsHeader line h) ∧
    (∀ line m, bare? line = some m ↔ IsBare line m) ∧
    ∀ output source : Text,
      List.Forall₂ (Reports source) (due none output.lines) (read output source) ∧
      ∀ before line after h, output.lines = before ++ line :: after → header? line = some h →
        read output source =
          Stage.idle.run source before ++ (Stage.echo h).run source after := by
  refine ⟨fun line h => header?_eq_some_iff, fun line m => bare?_eq_some_iff, ?_⟩
  intro output source
  refine ⟨(Stage.Owes.idle rfl).run source output.lines, ?_⟩
  intro before line after h whole header
  rw [read, whole, Stage.run_append_header header]

end CompilerMessage

end ScriptLoom
