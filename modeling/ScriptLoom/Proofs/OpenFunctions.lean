import ScriptLoom.Program
import ScriptLoom.Proofs.ExpansionParts
import ScriptLoom.Proofs.JoinedLines

/-! # Where a function without a body is reported

A checked script that cannot be taken apart has a function that nothing opens. The script is taken
apart after its format calls are expanded, and the function is reported on the line where it then
stands: the line feeds that the calls before it lost are missing
(`Program.reports_open_function`). Where no call is broken over lines the line is that of the
script.
-/

namespace ScriptLoom

namespace Text

/-- Blanks before a text are trimmed off. -/
theorem trim_blanks_append {blanks : Text} (blank : ∀ c ∈ blanks, isBlank c = true) (t : Text) :
    (blanks ++ t).trim = t.trim := by
  rw [trim, trim, trimStart, trimStart, List.dropWhile_append_of_pos blank]

private theorem lastLine_subset_append (s t : Text) : t.lastLine ⊆ (s ++ t).lastLine := by
  by_cases feed : '\n' ∈ t
  · rw [lastLine_append_of_mem feed]
    exact List.Subset.refl _
  · rw [lastLine_append_of_not_mem feed, lastLine_of_not_mem feed]
    exact List.subset_append_right _ _

private theorem lastLine_of_lineStarts {t : Text} (starts : t.LineStarts) : t.lastLine = [] := by
  rcases starts with rfl | last
  · rfl
  · obtain ⟨front, rfl⟩ := List.getLast?_eq_some_iff.mp last
    exact lastLine_append_of_mem (List.mem_singleton_self _) front

/-- A piece with a visible character that only blanks stand before on its line is that character:
a comment leaves line feeds only, and a literal has its quote before the character. -/
theorem eq_code_of_withoutComment {p : Piece} (formed : p.WellFormed) {s t : Text}
    {c : Char} (plain : Region.ofQuote? c = none) (inLine : c ≠ '\n')
    (read : p.withoutComment = s ++ c :: t) (blank : s.lastLine.trim = []) :
    p = .code c ∧ s = [] ∧ t = [] := by
  have noComment : ∀ body : Text, body.filter (· = '\n') ≠ s ++ c :: t := by
    intro body feeds
    have member : c ∈ body.filter (· = '\n') := by simp [feeds]
    exact inLine (by simpa using (List.mem_filter.mp member).2)
  cases formed with
  | @code d _ =>
    obtain ⟨rfl, same⟩ | ⟨s', rfl, same⟩ := List.cons_eq_append_iff.mp read
    · cases same
      exact ⟨rfl, rfl, rfl⟩
    · simp at same
  | line => exact absurd read (noComment _)
  | block => exact absurd read (noComment _)
  | @literal quote kind body closed opens grammar =>
    obtain ⟨-, noFeed, -, literal⟩ := Region.ofQuote?_eq_some opens
    have whole : quote :: body = s ++ c :: t := by
      cases kind with
      | comment => exact absurd rfl literal
      | string => exact read
      | character => exact read
    cases s with
    | nil =>
      obtain ⟨rfl, -⟩ := List.cons.inj whole
      rw [plain] at opens
      cases opens
    | cons d s =>
      obtain ⟨rfl, rfl⟩ := List.cons.inj whole
      have oneLine : '\n' ∉ quote :: s := by
        rw [List.mem_cons, not_or]
        exact ⟨noFeed.symm, fun feed =>
          grammar.not_mem_lineFeed noFeed (List.mem_append_left _ feed)⟩
      rw [Text.lastLine_of_not_mem oneLine] at blank
      have gap := Text.trim_eq_nil_iff.mp blank quote List.mem_cons_self
      rw [Region.isBlank_of_ofQuote? opens] at gap
      cases gap

/-- A visible character that only blanks stand before on its line is a piece of code. -/
theorem exists_code_of_flatMap {ps : List Piece} (formed : ∀ p ∈ ps, p.WellFormed) {s t : Text}
    {c : Char} (plain : Region.ofQuote? c = none) (inLine : c ≠ '\n')
    (read : ps.flatMap Piece.withoutComment = s ++ c :: t) (blank : s.lastLine.trim = []) :
    ∃ before after, ps = before ++ .code c :: after ∧
      before.flatMap Piece.withoutComment = s ∧ after.flatMap Piece.withoutComment = t := by
  induction ps generalizing s with
  | nil => simp at read
  | cons p ps ih =>
    have later : ∀ s', s = p.withoutComment ++ s' →
        ps.flatMap Piece.withoutComment = s' ++ c :: t →
        ∃ before after, p :: ps = before ++ .code c :: after ∧
          before.flatMap Piece.withoutComment = s ∧ after.flatMap Piece.withoutComment = t := by
      rintro s' rfl rest
      have blank' : s'.lastLine.trim = [] := trim_eq_nil_iff.mpr fun d member =>
        trim_eq_nil_iff.mp blank d (lastLine_subset_append _ _ member)
      obtain ⟨before, after, rfl, rfl, rfl⟩ :=
        ih (fun q listed => formed q (List.mem_cons_of_mem _ listed)) rest blank'
      exact ⟨p :: before, after, rfl, rfl, rfl⟩
    -- Either the character is behind the piece, or it is a part of the piece.
    rw [List.flatMap_cons, List.append_eq_append_iff] at read
    rcases read with ⟨s', own, rest⟩ | ⟨own, text, rest⟩
    · exact later s' own rest
    · cases own with
      | nil => exact later [] (by simpa using text.symm) rest.symm
      | cons d own =>
        obtain ⟨rfl, rfl⟩ := List.cons.inj rest
        obtain ⟨rfl, rfl, rfl⟩ :=
          eq_code_of_withoutComment (formed p List.mem_cons_self) plain inLine text blank
        exact ⟨[], ps, rfl, rfl, rfl⟩

/-- The depth after a word is that after its last line. -/
theorem nesting_lastLine {w : Text} {depth : Nat} (reached : lineNesting 0 w = some depth) :
    nesting '(' ')' 0 w.lastLine = some depth := by
  induction w using line_induction with
  | last line inLine => rwa [lastLine_of_not_mem inLine, ← lineNesting_of_not_mem inLine]
  | more line t inLine ih =>
    rw [lastLine_cons_lineFeed inLine]
    obtain ⟨middle, -, rest⟩ := lineNesting_append_eq_some.mp reached
    rw [lineNesting] at rest
    split at rest
    · cases rest
    · next level =>
      obtain rfl : middle = 0 := by simpa using level
      exact ih rest

private theorem codeOf_pieces_subset (t : Text) : codeOf t.pieces ⊆ t := by
  intro c member
  rw [← spell_pieces t]
  exact List.mem_flatMap.mpr ⟨.code c, mem_codeOf.mp member, List.mem_singleton_self c⟩

private theorem lastLine_codeOf {t : Text} (free : t.CommentFree) :
    lastLine (codeOf t.pieces) = codeOf t.lastLine.pieces := by
  rw [lastLine, free.splitOn_codeOf, splitOn_eq_concat, List.map_append, List.map_singleton,
    List.getLastD_concat]

/-- A text up to a place with blanks only before it on its line has its parentheses balanced. -/
theorem ReadApart.lined_left {s t : Text} (cut : ReadApart s t) (whole : (s ++ t).Lined)
    (blank : s.withoutComments.lastLine.trim = []) : s.Lined := by
  refine ⟨fun p member => whole.closed p ?_, ?_⟩
  · rw [cut.joined]
    exact List.mem_append_left _ member
  · have lines := whole.lines
    rw [cut.joined, lineCode_append] at lines
    obtain ⟨depth, reached, -⟩ := lineNesting_append_eq_some.mp lines
    have last := nesting_lastLine reached
    rw [lineCode, ← pieces_withoutComments, lastLine_codeOf (commentFree_withoutComments s)] at last
    rw [reached, ← last, nesting_of_forall_ne]
    intro c member
    have gap := trim_eq_nil_iff.mp blank c (codeOf_pieces_subset _ member)
    constructor
    · rintro rfl
      exact absurd gap (by decide)
    · rintro rfl
      exact absurd gap (by decide)

private theorem ReadApart.unbroken_left {s t : Text} (cut : ReadApart s t)
    (blank : s.withoutComments.lastLine.trim = []) (unbroken : (s ++ t).Unbroken) : s.Unbroken := by
  intro line member
  rw [splitOn_eq_concat, List.mem_append, List.mem_singleton] at member
  rcases member with full | rfl
  · apply unbroken line
    rw [cut.withoutComments_append, splitOn_append]
    exact List.mem_append_left _ full
  · simp [ContinuesCall, blank]

/-- What the whole expansion does to the line feeds of a text. -/
theorem Lined.count_of_expandAll {t r : Text} (lined : t.Lined) (expanded : t.expandAll = .ok r) :
    r.count '\n' ≤ t.count '\n' ∧ (t.Unbroken → r.count '\n' = t.count '\n') := by
  induction expanded using expandAll_induction with
  | done t done => exact ⟨Nat.le_refl _, fun _ => rfl⟩
  | step t next r expanded rest ih =>
    obtain ⟨fewer, same⟩ := lined.count_of_expandFirst expanded
    obtain ⟨fewer', same'⟩ := ih (lined.of_expandFirst expanded)
    refine ⟨fewer'.trans fewer, fun unbroken => ?_⟩
    rw [same' (lined.unbroken_of_expandFirst expanded unbroken), same unbroken]

private theorem Lined.stateAfter_of_expandAll {t r : Text} (lined : t.Lined)
    (expanded : t.expandAll = .ok r) :
    Script.stateAfter (t.withoutComments.splitOn '\n') =
      Script.stateAfter (r.withoutComments.splitOn '\n') := by
  induction expanded using expandAll_induction with
  | done => rfl
  | step t next r expanded rest ih =>
    exact (lined.stateAfter_of_expandFirst expanded).trans (ih (lined.of_expandFirst expanded))

end Text

namespace Script

/-- Whether a text ends outside all functions, at the start of a line but for blanks. -/
structure EndsOutside (t : Text) : Prop extends t.Lined where
  blank : t.withoutComments.lastLine.trim = []
  outside : stateAfter (t.withoutComments.splitOn '\n') = none

/-- Whether a text starts with a function that nothing closes. -/
structure StartsOpen (t : Text) : Prop extends t.Lined where
  starts : Text.startsWith (Text.trim (t.withoutComments.takeWhile (· ≠ '\n')))
    Keyword.function = true
  opened : ∃ depth, follow 0 t.braces = some depth

private theorem EndsOutside.of_expandFirst {t next : Text} (outside : EndsOutside t)
    (expanded : t.expandFirst = .ok (some next)) : EndsOutside next where
  toLined := outside.toLined.of_expandFirst expanded
  blank := outside.toLined.lastLine_of_expandFirst expanded outside.blank
  outside := by
    rw [← outside.toLined.stateAfter_of_expandFirst expanded]
    exact outside.outside

private theorem StartsOpen.of_expandFirst {t next : Text} (opened : StartsOpen t)
    (expanded : t.expandFirst = .ok (some next)) : StartsOpen next where
  toLined := opened.toLined.of_expandFirst expanded
  starts := by
    obtain ⟨s, u, u', v, read, read', -⟩ := opened.toLined.exists_change expanded
    have front := Text.sameFront_takeWhile s (u ++ ')' :: v) (u' ++ v)
    rw [← read, ← read'] at front
    rw [← front.startsWith_trim (by decide)]
    exact opened.starts
  opened := by
    rw [← opened.toLined.braces_of_expandFirst expanded]
    exact opened.opened

section Split

variable {before rest : Text}

/-- A text can be divided before a line that starts with a function, behind the blanks. -/
theorem exists_readApart_of_startsWith {t line : Text} {i : Nat}
    (listed : (t.withoutComments.splitOn '\n')[i]? = some line)
    (starts : line.trim.startsWith Keyword.function = true) :
    ∃ before rest, t = before ++ rest ∧ before.count '\n' = i ∧
      before.withoutComments.lastLine.trim = [] ∧
      rest.withoutComments.startsWith Keyword.function = true ∧ Text.ReadApart before rest := by
  obtain ⟨front, behind, whole, count, atStart, -, inLine⟩ :=
    Text.exists_of_getElem?_splitOn listed
  obtain ⟨blanks, after, own, blank, -⟩ := Text.exists_eq_append_trim line
  obtain ⟨header, trimmed⟩ := List.isPrefixOf_iff_prefix.mp starts
  have noFeed : '\n' ∉ blanks := fun feed => inLine (own ▸ List.mem_append_left _ feed)
  have atBlanks : (front ++ blanks).lastLine.trim = [] := by
    rw [Text.lastLine_append_of_not_mem noFeed, Text.lastLine_of_lineStarts atStart,
      List.nil_append]
    exact Text.trim_eq_nil_iff.mpr blank
  have read : t.withoutComments =
      (front ++ blanks) ++ (Keyword.function ++ (header ++ (after ++ behind))) := by
    rw [whole, own, ← trimmed]
    simp only [List.append_assoc]
  obtain ⟨ps, qs, pieces, first, second⟩ := Text.exists_code_of_flatMap
    (Text.scanned_pieces t).wellFormed (c := 'f') rfl (by decide) read atBlanks
  have apart : StartsApart (marksOf (.code 'f' :: qs)) := by
    rw [marksOf_cons (by decide)]
    exact startsApart_code (by decide) (by decide)
  obtain ⟨split, pieces', pieces'', cut⟩ := Text.readApart_spell pieces apart
  refine ⟨spell ps, spell (.code 'f' :: qs), split, ?_, ?_, ?_, cut⟩
  · rw [← Text.count_flatMap_withoutComment, first, List.count_append, count,
      List.count_eq_zero_of_not_mem noFeed, Nat.add_zero]
  · rwa [Text.withoutComments, pieces', first]
  · rw [Text.withoutComments, pieces'', List.flatMap_cons, second]
    exact List.isPrefixOf_iff_prefix.mpr ⟨_, rfl⟩

/-- The braces of a text are those of its lines, whatever blanks stand before it. -/
theorem flatMap_braces_behind {blanks : Text} (blank : ∀ c ∈ blanks, Text.isBlank c = true)
    (t : Text) :
    ((blanks ++ t.withoutComments.takeWhile (· ≠ '\n')) ::
      (t.withoutComments.splitOn '\n').tail).flatMap Text.braces = t.braces := by
  have lines := (Text.reads_withoutComments t).flatMap_splitOn
  have free : Text.CommentFree (t.withoutComments.takeWhile (· ≠ '\n')) := by
    refine (Text.commentFree_withoutComments t).of_mem_splitOn ?_
    rw [Text.splitOn_eq_cons]
    exact List.mem_cons_self
  have first : Text.braces (blanks ++ t.withoutComments.takeWhile (· ≠ '\n')) =
      Text.braces (t.withoutComments.takeWhile (· ≠ '\n')) :=
    (Text.Reads.blanks_append ⟨free, rfl⟩ blank).braces
  rw [List.flatMap_cons, first, ← List.flatMap_cons, ← Text.splitOn_eq_cons, lines]

private theorem leftOpen_append (cut : Text.ReadApart before rest) (outside : EndsOutside before)
    (opened : StartsOpen rest) :
    LeftOpen ((before ++ rest).withoutComments.splitOn '\n') (before.count '\n') := by
  have blank := Text.trim_eq_nil_iff.mp outside.blank
  refine ⟨before.withoutComments.fullLines,
    before.withoutComments.lastLine ++ rest.withoutComments.takeWhile (· ≠ '\n'),
    (rest.withoutComments.splitOn '\n').tail, ?_, ?_, ?_, ?_, ?_⟩
  · rw [cut.withoutComments_append, Text.splitOn_append]
  · rw [Text.length_fullLines, Text.count_withoutComments]
  · have whole := outside.outside
    rwa [Text.splitOn_eq_concat, stateAfter_append, List.foldl_cons, List.foldl_nil,
      advance_of_trim_eq_nil outside.blank] at whole
  · rw [Text.trim_blanks_append blank]
    exact opened.starts
  · rw [flatMap_braces_behind blank]
    exact opened.opened

/-- A function that is left open divides its script. -/
theorem LeftOpen.exists_split {t : Text} {i : Nat} (lined : t.Lined)
    (opened : LeftOpen (t.withoutComments.splitOn '\n') i) :
    ∃ before rest, t = before ++ rest ∧ before.count '\n' = i ∧
      rest.withoutComments.startsWith Keyword.function = true ∧ Text.ReadApart before rest ∧
      EndsOutside before ∧ StartsOpen rest := by
  obtain ⟨earlier, line, later, lines, rfl, outside, starts, depth, followed⟩ := opened
  have listed : (t.withoutComments.splitOn '\n')[earlier.length]? = some line := by
    simp [lines]
  obtain ⟨before, rest, rfl, count, atBlanks, keyword, cut⟩ :=
    exists_readApart_of_startsWith listed starts
  have blank := Text.trim_eq_nil_iff.mp atBlanks
  -- The lines before the function are those of the first part.
  rw [cut.withoutComments_append, Text.splitOn_append] at lines
  have size : before.withoutComments.fullLines.length = earlier.length := by
    rw [Text.length_fullLines, Text.count_withoutComments, count]
  obtain ⟨rfl, sameLine⟩ := List.append_inj lines size
  obtain ⟨rfl, rfl⟩ := List.cons.inj sameLine
  rw [Text.trim_blanks_append blank] at starts
  rw [flatMap_braces_behind blank] at followed
  have linedBefore := cut.lined_left lined atBlanks
  refine ⟨before, rest, rfl, count, keyword, cut, ⟨linedBefore, atBlanks, ?_⟩,
    ⟨cut.lined_right linedBefore lined, starts, depth, followed⟩⟩
  rw [Text.splitOn_eq_concat, stateAfter_append, outside]
  exact advance_of_trim_eq_nil atBlanks

end Split

end Script

namespace Program

open Text in
/-- A script without problems that cannot be taken apart is refused with one diagnostic. It reports
the function that is left open in the script itself, on the line where the function stands after
the expansion of what comes before it; that line is at most the one of the script, and the same
where no format call is broken over lines. -/
theorem reports_open_function {text r : Text} {catalog : Catalog} {problem : Diagnostic}
    (quiet : (problemsIn text catalog).isEmpty = true) (expanded : text.expandAll = .ok r)
    (failed : Script.ofText r catalog = .error problem) (fileName : Path) :
    ofScript text fileName catalog = .error (.ofList [problem]) ∧
      ∃ before rest before', text = before ++ rest ∧
        rest.withoutComments.startsWith Keyword.function = true ∧
        Script.ofText text catalog = .error (Problem.openBrace.onLine (lineAfter before)) ∧
        before.expandAll = .ok before' ∧
        problem = Problem.openBrace.onLine (lineAfter before') ∧
        lineAfter before' ≤ lineAfter before ∧
        (text.Unbroken → lineAfter before' = lineAfter before) := by
  have lined := (settled_of_problemsIn quiet).toLined
  have stopped : ofSound text fileName.className catalog = .error problem := by
    rw [ofSound, expanded]
    change Script.ofText r catalog >>= _ = _
    rw [failed]
    rfl
  refine ⟨by rw [ofScript, if_pos quiet, stopped]; rfl, ?_⟩
  -- Expansion keeps the state at the end, so the script itself cannot be taken apart either.
  obtain ⟨i, opened, rfl⟩ := Script.exists_leftOpen_of_ofText failed
  have stuck := opened.stateAfter_ne_none
  rw [← lined.stateAfter_of_expandAll expanded] at stuck
  cases taken : Script.ofText text catalog with
  | ok script => exact absurd (Script.stateAfter_of_ofText taken) stuck
  | error problem =>
    obtain ⟨j, opened', rfl⟩ := Script.exists_leftOpen_of_ofText taken
    obtain ⟨before, rest, rfl, rfl, starts, cut, outside, opens⟩ := opened'.exists_split lined
    obtain ⟨before', first, -⟩ := outside.toLined.exists_lined_expandAll
    obtain ⟨rest', second, -⟩ := opens.toLined.exists_lined_expandAll
    -- The two parts are expanded apart, and the function is still left open between them.
    obtain ⟨joined, cut'⟩ := cut.expandAll_append outside.toLined lined first second
    obtain rfl : before' ++ rest' = r := Except.ok.inj (joined.symm.trans expanded)
    have outside' := (of_expandAll Script.EndsOutside.of_expandFirst outside first).1
    have opens' := (of_expandAll Script.StartsOpen.of_expandFirst opens second).1
    obtain rfl := opened.unique (Script.leftOpen_append cut' outside' opens')
    obtain ⟨fewer, same⟩ := outside.toLined.count_of_expandAll first
    refine ⟨before, rest, before', rfl, starts, ?_, first, ?_, ?_, ?_⟩
    · rw [lineAfter, Nat.add_comm]
    · rw [lineAfter, Nat.add_comm]
    · exact Nat.add_le_add_left fewer 1
    · exact fun unbroken => congrArg (1 + ·) (same (cut.unbroken_left outside.blank unbroken))

open Text in
/-- Comments and calls on one line leave the lines as they are. -/
theorem reports_open_function_behind_remark :
    let text : Text := "/* a\nb */ s = \"%s\" % (c);\n  func void f()"
    (problemsIn text .empty).isEmpty = true ∧ text.Unbroken ∧ ∃ before rest, text = before ++ rest ∧
      rest.withoutComments.startsWith Keyword.function = true ∧
      ofScript text "A.as" .empty =
        .error (.ofList [Problem.openBrace.onLine (lineAfter before)]) := by
  intro text
  have quiet : (problemsIn text .empty).isEmpty = true := by decide +kernel
  have unbroken : text.Unbroken := by decide +kernel
  have expanded : text.expandAll = .ok ("/* a\nb */ s = \"%s\"" ++
      FormatCall.substitution "c" ++ ";\n  func void f()") := by
    decide +kernel
  have failed : Script.ofText ("/* a\nb */ s = \"%s\"" ++ FormatCall.substitution "c" ++
      ";\n  func void f()") .empty = .error (Problem.openBrace.onLine 3) := by
    decide +kernel
  obtain ⟨refused, before, rest, before', whole, starts, -, -, reported, -, same⟩ :=
    reports_open_function quiet expanded failed "A.as"
  refine ⟨quiet, unbroken, before, rest, whole, starts, ?_⟩
  rw [refused, reported, same unbroken]

/-- The line feed before the percent sign is missing from the line that is reported. -/
theorem open_function_reported_early :
    let before : Text := "s = \"%s\"\n% (a);\n"
    let rest : Text := "func void f()"
    (problemsIn (before ++ rest) .empty).isEmpty = true ∧ Text.lineAfter before = 3 ∧
      ofScript (before ++ rest) "A.auto" .empty =
        .error (.ofList [Problem.openBrace.onLine 2]) := by
  decide +kernel

end Program

end ScriptLoom
