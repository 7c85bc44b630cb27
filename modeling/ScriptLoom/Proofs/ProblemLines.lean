import ScriptLoom.Proofs.EntryPoint
import ScriptLoom.Proofs.LineComments
import ScriptLoom.Proofs.NameRuns
import ScriptLoom.Proofs.PlainLines

/-! # The lines that problems are reported on

A text has a line for each line feed, and one more if something stands behind the last of them
(`Text.length_lines_of_not_lineStarts`), so whatever stands in a text stands on one of its lines.
The checks of a script report what stands in the script, or in the script without comments, which
has no more lines, and so every problem is on a line of the script
(`hasLine_of_mem_problemsIn`). Expanding the format calls of an accepted script adds no line, and a
function that is not closed is reported on a line of the script too
(`Script.hasLine_of_ofText_eq_error`).
-/

namespace ScriptLoom

namespace Text

/-! ### The number of lines -/

private theorem length_lines_of_lineStarts {t : Text} (starts : t.LineStarts) :
    t.lines.length = t.count '\n' := by
  rcases starts with rfl | last
  · rfl
  · obtain ⟨front, rfl⟩ := List.getLast?_eq_some_iff.mp last
    rw [lines_concat_lineFeed, List.length_map, length_splitOn, List.count_append,
      List.count_singleton_self]

private theorem length_lines_of_not_lineStarts {t : Text} (inside : ¬t.LineStarts) :
    t.lines.length = t.count '\n' + 1 := by
  induction t using line_induction with
  | last line inLine =>
    have nonempty : line ≠ [] := fun empty => inside (.inl empty)
    rw [lines, List.splitOn_eq_singleton inLine, linesOfParts, if_neg nonempty,
      List.count_eq_zero_of_not_mem inLine]
    rfl
  | more line t inLine ih =>
    have later : ¬t.LineStarts := by
      rintro (rfl | last)
      · exact inside (.inr (by simp))
      · exact inside (.inr (by rw [List.getLast?_append, List.getLast?_cons, last]; rfl))
    have starts : (line ++ ['\n']).LineStarts := .inr List.getLast?_concat
    rw [List.append_cons, lines_append starts, List.length_append, ih later,
      length_lines_of_lineStarts starts, ← Nat.add_assoc, ← List.count_append]

/-- Whether a text has a line of a given number. -/
def HasLine (t : Text) (n : Nat) : Prop :=
  1 ≤ n ∧ n ≤ t.lines.length

/-- What stands in a text stands on one of its lines. -/
theorem hasLine_lineAfter (s : Text) {u : Text} (nonempty : u ≠ []) :
    (s ++ u).HasLine (lineAfter s) := by
  refine ⟨Nat.le_add_right 1 _, ?_⟩
  by_cases starts : (s ++ u).LineStarts
  · have feed : '\n' ∈ u := by
      rcases starts with empty | last
      · exact absurd (List.append_eq_nil_iff.mp empty).2 nonempty
      · rw [List.getLast?_append_of_ne_nil _ nonempty] at last
        exact List.mem_of_getLast? last
    have positive := List.count_pos_iff.mpr feed
    rw [length_lines_of_lineStarts starts, lineAfter, List.count_append]
    omega
  · rw [length_lines_of_not_lineStarts starts, lineAfter, List.count_append]
    omega

private theorem HasLine.mono {s t : Text} (feeds : s.count '\n' ≤ t.count '\n')
    (starts : t.LineStarts → s.LineStarts) {n : Nat} (has : s.HasLine n) : t.HasLine n := by
  refine ⟨has.1, has.2.trans ?_⟩
  by_cases ends : t.LineStarts
  · rw [length_lines_of_lineStarts ends, length_lines_of_lineStarts (starts ends)]
    exact feeds
  · rw [length_lines_of_not_lineStarts ends]
    by_cases own : s.LineStarts
    · rw [length_lines_of_lineStarts own]
      omega
    · rw [length_lines_of_not_lineStarts own]
      omega

/-- Without its comments a text has no line that it does not have with them. -/
theorem HasLine.of_withoutComments {t : Text} {n : Nat} (has : t.withoutComments.HasLine n) :
    t.HasLine n := by
  refine has.mono ?_ ?_
  · rw [count_withoutComments]
  · intro starts
    rw [← spell_pieces t] at starts
    exact lineStarts_flatMap_withoutComment (scanned_pieces t).wellFormed starts

/-- The numbered lines of a text are lines that it has. -/
theorem hasLine_of_mem_numberedLines {t line : Text} {n : Nat}
    (member : (n, line) ∈ t.numberedLines) : t.HasLine n := by
  obtain ⟨⟨own, i⟩, listed, same⟩ := List.mem_map.mp member
  cases same
  have bound := (List.mem_zipIdx listed).2.1
  exact ⟨Nat.le_add_left 1 i, by omega⟩

end Text

/-! ### Places in a text -/

private theorem exists_of_mem_codeFrom {start i : Nat} {c : Char} {ps : List Piece}
    (member : (i, c) ∈ codeFrom start ps) :
    ∃ before after, ps = before ++ .code c :: after ∧ i = start + Text.size (spell before) := by
  induction ps generalizing start with
  | nil => cases member
  | cons p ps ih =>
    cases p with
    | code d =>
      rcases List.mem_cons.mp member with own | later
      · cases own
        exact ⟨[], ps, rfl, rfl⟩
      · obtain ⟨before, after, rfl, rfl⟩ := ih later
        exact ⟨.code d :: before, after, rfl, Nat.add_assoc _ _ _⟩
    | region kind body closed =>
      obtain ⟨before, after, rfl, rfl⟩ := ih member
      refine ⟨.region kind body closed :: before, after, rfl, ?_⟩
      rw [spell_cons, Text.size_append, Nat.add_assoc]
      rfl

private theorem exists_of_mem_spansFrom {start : Nat} {span : Span} {ps : List Piece}
    (member : span ∈ spansFrom start ps) :
    ∃ before p after, ps = before ++ p :: after ∧
      span.start = start + Text.size (spell before) := by
  induction ps generalizing start with
  | nil => cases member
  | cons p ps ih =>
    cases p with
    | code d =>
      obtain ⟨before, q, after, rfl, place⟩ := ih member
      exact ⟨.code d :: before, q, after, rfl, place.trans (Nat.add_assoc _ _ _)⟩
    | region kind body closed =>
      rcases List.mem_cons.mp member with rfl | later
      · exact ⟨[], _, ps, rfl, rfl⟩
      · obtain ⟨before, q, after, rfl, place⟩ := ih later
        refine ⟨.region kind body closed :: before, q, after, rfl, ?_⟩
        rw [place, spell_cons, Text.size_append, Nat.add_assoc]
        rfl

namespace Text

/-- A piece of a text stands on one of its lines. -/
theorem hasLine_lineNumberAt {t : Text} {before after : List Piece} {p : Piece}
    (split : t.pieces = before ++ p :: after) {i : Nat} (place : i = 0 + size (spell before)) :
    t.HasLine (t.lineNumberAt i) := by
  have whole : t = spell before ++ (p.text ++ spell after) := by
    rw [← spell_pieces t, split, spell_append, spell_cons]
  have formed : p.WellFormed := (scanned_pieces t).wellFormed p (by rw [split]; simp)
  rw [place, Nat.zero_add, whole, lineNumberAt_size]
  exact hasLine_lineAfter _ (List.append_ne_nil_of_left_ne_nil formed.text_ne_nil _)

/-- What is given with the text before it, nearest character first, stands on a line. -/
theorem hasLine_of_reverse {t before rest : Text} (whole : t = before.reverse ++ rest)
    (nonempty : rest ≠ []) : t.HasLine (lineAfter before) := by
  have same : lineAfter before.reverse = lineAfter before := by
    rw [lineAfter, lineAfter, List.count_reverse]
  rw [whole, ← same]
  exact hasLine_lineAfter _ nonempty

end Text

private theorem FormatCall.exists_of_percentAfter? {ps rest : List Piece} {percent : Text}
    (found : percentAfter? ps = some (percent, rest)) :
    ∃ gap, percent = gap ++ ['%'] ∧ spell ps = gap ++ '%' :: spell rest := by
  unfold percentAfter? at found
  have taken := spell_takeCode Text.isGap ps
  split at found
  · next gap rest' code =>
    cases found
    rw [code] at taken
    exact ⟨gap, rfl, taken⟩
  · cases found

/-- An identifier is a name that stands in the text, behind what comes before it. -/
theorem Text.exists_of_mem_identifiers {t : Text} {ident : Identifier}
    (member : ident ∈ t.identifiers) :
    ∃ u, ident.name ≠ [] ∧ t = ident.before.reverse ++ (ident.name ++ u) := by
  obtain ⟨front, behind, whole, between⟩ := mem_identifiers.mp member
  refine ⟨spell behind, ?_, ?_⟩
  · intro empty
    have named := between.name
    rw [empty] at named
    cases named
  · rw [between.before, List.reverse_reverse, ← spell_pieces t, whole, spell_append, spell_append,
      spell_map_code]

namespace Verification

open Text

/-! ### The checks -/

private theorem hasLine_of_mem_regionProblems {text : Text} {d : Diagnostic}
    (member : d ∈ regionProblems text) : text.HasLine d.line := by
  obtain ⟨span, listed, rfl⟩ := List.mem_map.mp member
  obtain ⟨before, p, after, split, place⟩ :=
    exists_of_mem_spansFrom (List.mem_of_mem_filter listed)
  exact hasLine_lineNumberAt split place

private theorem mem_of_mem_unmatchedBraces {opened : List Nat} {places : List (Nat × Char)}
    {i : Nat} {problem : Problem} (member : (i, problem) ∈ unmatchedBraces opened places) :
    i ∈ opened ∨ ∃ c, (i, c) ∈ places := by
  fun_induction unmatchedBraces opened places with
  | case1 opened =>
    obtain ⟨j, listed, same⟩ := List.mem_map.mp member
    cases same
    exact .inl (List.mem_reverse.mp listed)
  | case2 opened j rest ih =>
    rcases ih member with inside | ⟨c, later⟩
    · rcases List.mem_cons.mp inside with rfl | inside
      · exact .inr ⟨_, List.mem_cons_self⟩
      · exact .inl inside
    · exact .inr ⟨c, List.mem_cons_of_mem _ later⟩
  | case3 j rest _ ih =>
    rcases List.mem_cons.mp member with same | later
    · cases same
      exact .inr ⟨_, List.mem_cons_self⟩
    · rcases ih later with inside | ⟨c, later⟩
      · cases inside
      · exact .inr ⟨c, List.mem_cons_of_mem _ later⟩
  | case4 j rest _ outer k ih =>
    rcases ih member with inside | ⟨c, later⟩
    · exact .inl (List.mem_cons_of_mem _ inside)
    · exact .inr ⟨c, List.mem_cons_of_mem _ later⟩
  | case5 opened j c rest _ _ ih =>
    rcases ih member with inside | ⟨c, later⟩
    · exact .inl inside
    · exact .inr ⟨c, List.mem_cons_of_mem _ later⟩

private theorem hasLine_of_mem_braceProblems {code : Text} {d : Diagnostic}
    (member : d ∈ braceProblems code) : code.HasLine d.line := by
  obtain ⟨⟨i, problem⟩, listed, rfl⟩ := List.mem_map.mp member
  rcases mem_of_mem_unmatchedBraces listed with inside | ⟨c, placed⟩
  · cases inside
  · obtain ⟨before, after, split, place⟩ := exists_of_mem_codeFrom placed
    exact hasLine_lineNumberAt split place

private theorem hasLine_of_mem_parenthesisProblems {code : Text} {d : Diagnostic}
    (member : d ∈ parenthesisProblems code) : code.HasLine d.line := by
  obtain ⟨⟨n, line⟩, numbered, reported⟩ := List.mem_flatMap.mp member
  have own : d.line = n := by
    rcases List.mem_append.mp reported with opened | stray
    · split at opened
      · cases opened
      · rw [List.mem_singleton.mp opened]
        rfl
    · split at stray
      · rw [List.mem_singleton.mp stray]
        rfl
      · cases stray
  rw [own]
  exact hasLine_of_mem_numberedLines numbered

/-- A literal without arguments is reported on the line of its percent sign. -/
theorem exists_of_mem_bareFormats {line : Nat} {ps : List Piece} {d : Diagnostic}
    (member : d ∈ bareFormats line ps) :
    ∃ s u, spell ps = s ++ u ∧ u ≠ [] ∧ d.line = line + s.count '\n' := by
  have push : ∀ {line : Nat} (p : Piece) {ps : List Piece},
      (∃ s u, spell ps = s ++ u ∧ u ≠ [] ∧ d.line = line + p.text.count '\n' + s.count '\n') →
        ∃ s u, spell (p :: ps) = s ++ u ∧ u ≠ [] ∧ d.line = line + s.count '\n' := by
    rintro line p ps ⟨s, u, whole, nonempty, number⟩
    refine ⟨p.text ++ s, u, by rw [spell_cons, whole, List.append_assoc], nonempty, ?_⟩
    rw [number, List.count_append, Nat.add_assoc]
  fun_induction bareFormats line ps with
  | case1 => cases member
  | case2 line body ps after found ih =>
    apply push
    rcases List.mem_append.mp member with own | later
    · cases percent : FormatCall.percentAfter? ps with
      | none => simp [found, percent] at own
      | some parts =>
        obtain ⟨sign, rest⟩ := parts
        obtain ⟨gap, rfl, whole⟩ := FormatCall.exists_of_percentAfter? percent
        simp only [found, percent] at own
        split at own
        · cases own
        · refine ⟨gap, _, whole, by simp, ?_⟩
          rw [List.mem_singleton.mp own, List.count_append]
          rfl
    · exact ih later
  | case3 line p ps _ ih => exact push p (ih member)

private theorem hasLine_of_mem_formatProblems {code : Text} {d : Diagnostic}
    (member : d ∈ formatProblems code) : code.HasLine d.line := by
  obtain ⟨s, u, whole, nonempty, number⟩ := exists_of_mem_bareFormats member
  rw [spell_pieces] at whole
  rw [whole, number]
  exact hasLine_lineAfter s nonempty

private theorem hasLine_of_mem_letterCaseProblems {code : Text} {catalog : Catalog} {d : Diagnostic}
    (member : d ∈ letterCaseProblems code catalog) : code.HasLine d.line := by
  obtain ⟨⟨previous, ident⟩, paired, reported⟩ := List.mem_filterMap.mp member
  have own : d.line = ident.line := by
    dsimp only at reported
    split at reported
    · cases reported
    · obtain ⟨expected, -, rfl⟩ := Option.map_eq_some_iff.mp reported
      rfl
  obtain ⟨u, nonempty, whole⟩ := exists_of_mem_identifiers (List.of_mem_zip paired).2
  rw [own]
  exact hasLine_of_reverse whole (List.append_ne_nil_of_left_ne_nil nonempty u)

private theorem hasLine_of_mem_functionProblems {code : Text} {catalog : Catalog} {d : Diagnostic}
    (member : d ∈ functionProblems code catalog) : code.HasLine d.line := by
  obtain ⟨⟨n, line⟩, numbered, reported⟩ := List.mem_filterMap.mp member
  obtain ⟨name, -, reported⟩ := Option.bind_eq_some_iff.mp reported
  split at reported
  · cases reported
    exact hasLine_of_mem_numberedLines numbered
  · cases reported

private theorem hasLine_of_mem_globalProblems {code : Text} {catalog : Catalog} {d : Diagnostic}
    (member : d ∈ globalProblems code catalog) : code.HasLine d.line := by
  obtain ⟨⟨n, line⟩, numbered, reported⟩ := List.mem_filterMap.mp member
  dsimp only at reported
  split at reported
  · split at reported
    · cases reported
      exact hasLine_of_mem_numberedLines numbered
    · cases reported
  · cases reported

/-- The characters that make an assignment operator with an equals sign behind them. -/
def compoundSigns : List Char :=
  ['+', '-', '*', '/', '%', '&', '|', '^']

/-- The characters that make a comparison with an equals sign behind them. -/
def comparisonSigns : List Char :=
  ['!', '<', '>', '=']

/-- An operator is an equals sign behind a sign that it forms a compound with, or behind no sign
that makes it a comparison. -/
theorem beforeOperator?_eq_some {before operand : Text} :
    beforeOperator? before = some operand ↔ (∃ c ∈ compoundSigns, before = c :: operand) ∨
      before = operand ∧ ∀ c ∈ before.head?, c ∉ comparisonSigns ∧ c ∉ compoundSigns := by
  have apart : ∀ c ∈ compoundSigns, c ∉ comparisonSigns := by decide
  cases before with
  | nil => simp [beforeOperator?, eq_comm]
  | cons c before =>
    have signs : beforeOperator? (c :: before) = if c ∈ comparisonSigns then none
        else if c ∈ compoundSigns then some before else some (c :: before) := by
      simp only [beforeOperator?, List.contains_iff_mem]
      rfl
    by_cases comparison : c ∈ comparisonSigns
    · have single : c ∉ compoundSigns := fun compound => apart c compound comparison
      simp [signs, comparison, single]
    · by_cases compound : c ∈ compoundSigns <;> simp [signs, comparison, compound]

/-- The assignments among pieces are at their equals signs that no other one follows. -/
theorem mem_assignments {before operand : Text} {ps : List Piece} :
    operand ∈ assignments before ps ↔ ∃ front behind, ps = front ++ .code '=' :: behind ∧
      behind.head? ≠ some (.code '=') ∧
      beforeOperator? ((spell front).reverse ++ before) = some operand := by
  have skip : ∀ {before : Text} {p : Piece} {ps : List Piece},
      (p = .code '=' → ps.head? ≠ some (.code '=') → beforeOperator? before ≠ some operand) →
      ((∃ front behind, p :: ps = front ++ .code '=' :: behind ∧
        behind.head? ≠ some (.code '=') ∧
        beforeOperator? ((spell front).reverse ++ before) = some operand) ↔
      ∃ front behind, ps = front ++ .code '=' :: behind ∧ behind.head? ≠ some (.code '=') ∧
        beforeOperator? ((spell front).reverse ++ (p.text.reverse ++ before)) = some operand) := by
    intro before p ps other
    constructor
    · rintro ⟨front, behind, split, single, found⟩
      cases front with
      | nil =>
        cases split
        exact absurd found (other rfl single)
      | cons q front =>
        cases split
        exact ⟨front, behind, rfl, single, by simpa using found⟩
    · rintro ⟨front, behind, rfl, single, found⟩
      exact ⟨p :: front, behind, rfl, single, by simpa using found⟩
  fun_induction assignments before ps with
  | case1 => simp
  | case2 before ps ih =>
    rw [skip (by simp), skip (by simp [beforeOperator?, Piece.text])]
    exact ih
  | case3 before ps single ih =>
    have single' : ps.head? ≠ some (.code '=') := by
      intro head
      obtain ⟨rest, rfl⟩ := List.head?_eq_some_iff.mp head
      exact single rest rfl
    rw [List.mem_append, Option.mem_toList]
    constructor
    · rintro (own | later)
      · exact ⟨[], ps, rfl, single', own⟩
      · obtain ⟨front, behind, rfl, rest⟩ := ih.mp later
        exact ⟨.code '=' :: front, behind, rfl, by simpa [Piece.text] using rest⟩
    · rintro ⟨front, behind, split, rest⟩
      cases front with
      | nil =>
        cases split
        exact .inl rest.2
      | cons q front =>
        cases split
        exact .inr (ih.mpr ⟨front, behind, rfl, by simpa [Piece.text] using rest⟩)
  | case4 before p ps _ other ih =>
    rw [skip fun same => absurd same other]
    exact ih

/-- What is assigned to is before the rest of the text. -/
theorem exists_of_mem_assignments {before operand : Text} {ps : List Piece}
    (member : operand ∈ assignments before ps) :
    ∃ u, u ≠ [] ∧ before.reverse ++ spell ps = operand.reverse ++ u := by
  obtain ⟨front, behind, rfl, -, found⟩ := mem_assignments.mp member
  have suffix : operand <:+ (spell front).reverse ++ before := by
    rcases beforeOperator?_eq_some.mp found with ⟨c, -, same⟩ | ⟨same, -⟩
    · rw [same]
      exact List.suffix_cons _ _
    · rw [same]
  obtain ⟨operator, whole⟩ := suffix
  refine ⟨operator.reverse ++ '=' :: spell behind, by simp, ?_⟩
  have reversed := congrArg List.reverse whole
  simp only [List.reverse_append, List.reverse_reverse] at reversed
  rw [← List.append_assoc, reversed, spell_append, List.append_assoc]
  rfl

private theorem hasLine_of_mem_assignmentProblems {code : Text} {catalog : Catalog} {d : Diagnostic}
    (member : d ∈ assignmentProblems code catalog) : code.HasLine d.line := by
  obtain ⟨before, listed, reported⟩ := List.mem_filterMap.mp member
  obtain ⟨name, -, reported⟩ := Option.bind_eq_some_iff.mp reported
  have own : d.line = lineAfter before := by
    split at reported
    · cases reported
      rfl
    · cases reported
  obtain ⟨u, nonempty, whole⟩ := exists_of_mem_assignments listed
  rw [spell_pieces] at whole
  rw [own]
  exact hasLine_of_reverse whole nonempty

end Verification

open Verification in
/-- Every problem of a script is on one of its lines. -/
theorem hasLine_of_mem_problemsIn {text : Text} {catalog : Catalog} {d : Diagnostic}
    (member : d ∈ (problemsIn text catalog).toList) : text.HasLine d.line := by
  have listed := Diagnostics.mem_of_mem_ofList member
  simp only [List.mem_append] at listed
  rcases listed with
    ((((((region | brace) | parenthesis) | format) | letterCase) | function) | global) | assignment
  · exact hasLine_of_mem_regionProblems region
  · exact (hasLine_of_mem_braceProblems brace).of_withoutComments
  · exact (hasLine_of_mem_parenthesisProblems parenthesis).of_withoutComments
  · exact (hasLine_of_mem_formatProblems format).of_withoutComments
  · exact (hasLine_of_mem_letterCaseProblems letterCase).of_withoutComments
  · exact (hasLine_of_mem_functionProblems function).of_withoutComments
  · exact (hasLine_of_mem_globalProblems global).of_withoutComments
  · exact (hasLine_of_mem_assignmentProblems assignment).of_withoutComments

/-! ### Taking an accepted script apart -/

private theorem Text.Settled.hasLine_of_expandFirst {t next : Text} (settled : t.Settled)
    (expanded : t.expandFirst = .ok (some next)) {n : Nat}
    (has : next.withoutComments.HasLine n) : t.withoutComments.HasLine n := by
  obtain ⟨s, u, u', v, old, new, inLine⟩ := settled.exists_change expanded
  refine has.mono ?_ ?_
  · rw [old, new]
    simp only [List.count_append, List.count_cons, List.count_eq_zero_of_not_mem inLine]
    omega
  · rw [old, new]
    rintro (empty | last)
    · simp at empty
    · cases v with
      | nil =>
        rw [List.append_cons, ← List.append_assoc, List.getLast?_concat] at last
        cases last
      | cons c v =>
        refine .inr ?_
        simpa [List.getLast?_append, List.getLast?_cons] using last

private theorem Text.Settled.hasLine_of_expandAll {t r : Text} (settled : t.Settled)
    (expanded : t.expandAll = .ok r) {n : Nat} (has : r.withoutComments.HasLine n) :
    t.withoutComments.HasLine n := by
  have step : ∀ {s next : Text},
      (s.Settled ∧ (s.withoutComments.HasLine n → t.withoutComments.HasLine n)) →
        s.expandFirst = .ok (some next) →
          next.Settled ∧ (next.withoutComments.HasLine n → t.withoutComments.HasLine n) := by
    rintro s next ⟨settled, kept⟩ expanded
    exact ⟨settled.of_expandFirst expanded,
      fun has => kept (settled.hasLine_of_expandFirst expanded has)⟩
  exact (Text.of_expandAll step ⟨settled, id⟩ expanded).1.2 has

/-- A function of an accepted script that is not closed is reported on a line of the script. -/
theorem Script.hasLine_of_ofText_eq_error {text r : Text} {catalog : Catalog} {d : Diagnostic}
    (settled : text.Settled) (expanded : text.expandAll = .ok r)
    (failed : ofText r catalog = .error d) : text.HasLine d.line := by
  have items : itemsOfLines (codeLines r) = .error d := by
    cases read : itemsOfLines (codeLines r) with
    | ok items =>
      rw [ofText, read] at failed
      cases failed
    | error problem =>
      rw [ofText, read] at failed
      cases failed
      rfl
  obtain ⟨n, line, rest, reached, -, -, rfl⟩ := itemsOfLines_eq_error_iff.mp items
  have listed : (n, line) ∈ codeLines r := reached.isSuffix.subset List.mem_cons_self
  obtain ⟨⟨m, raw⟩, numbered, same⟩ := List.mem_map.mp (List.mem_of_mem_filter listed)
  cases same
  have has := Text.hasLine_of_mem_numberedLines numbered
  exact (settled.hasLine_of_expandAll expanded has).of_withoutComments

end ScriptLoom
