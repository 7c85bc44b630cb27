import ScriptLoom.Proofs.Acceptance
import ScriptLoom.Proofs.Braces

/-! # Functions among the lines of a script

Whether a line of a script stands inside a function shows on the lines before it: a function starts
on a line with the keyword outside all others and ends on the line of the brace that matches its
first one (`Script.stateAfter`). A script is taken apart unless the function that is open at its
end is never closed (`Script.exists_leftOpen_of_ofText`, `Script.stateAfter_of_ofText`); there is
one such function at most (`Script.LeftOpen.unique`).
-/

namespace ScriptLoom

namespace Script

/-! ### The braces of a function -/

/-- The number of open braces after a word of a function, `depth` of them being open before. None
is open before the first opening brace, and there is no number behind the brace that matches it. -/
def follow : Nat → Text → Option Nat
  | 0, [] => some 0
  | 0, c :: word => if c = '{' then follow 1 word else follow 0 word
  | depth + 1, word => (nesting '{' '}' depth word).map (· + 1)

section Follow

variable {depth : Nat} {u v w : Text}

private theorem follow_succ : follow (depth + 1) w = (nesting '{' '}' depth w).map (· + 1) := by
  rw [follow]

private theorem follow_header (unopened : '{' ∉ w) : follow 0 w = some 0 := by
  induction w with
  | nil => rfl
  | cons c w ih =>
    rw [follow, if_neg (List.ne_of_not_mem_cons unopened).symm]
    exact ih (List.not_mem_of_not_mem_cons unopened)

private theorem follow_block (unopened : '{' ∉ u) :
    follow 0 (u ++ '{' :: v) = (nesting '{' '}' 0 v).map (· + 1) := by
  induction u with
  | nil => rw [List.nil_append, follow, if_pos rfl, follow_succ]
  | cons c u ih =>
    rw [List.cons_append, follow, if_neg (List.ne_of_not_mem_cons unopened).symm]
    exact ih (List.not_mem_of_not_mem_cons unopened)

/-- The braces of two words are followed one after the other. -/
theorem follow_append : follow depth (u ++ v) = (follow depth u).bind (follow · v) := by
  have inside : ∀ (depth : Nat) (u : Text),
      follow (depth + 1) (u ++ v) = (follow (depth + 1) u).bind (follow · v) := by
    intro depth u
    rw [follow_succ, follow_succ, nesting_append]
    cases nesting '{' '}' depth u with
    | none => rfl
    | some middle => exact follow_succ.symm
  cases depth with
  | succ depth => exact inside depth u
  | zero =>
    induction u with
    | nil => rfl
    | cons c u ih =>
      rw [List.cons_append, follow, follow]
      split
      · exact inside 0 u
      · exact ih

private theorem follow_append_eq_some {final : Nat} :
    follow depth (u ++ v) = some final ↔
      ∃ middle, follow depth u = some middle ∧ follow middle v = some final := by
  rw [follow_append, Option.bind_eq_some_iff]

private theorem follow_filter {keep : Char → Bool} (keepsOpening : keep '{' = true)
    (keepsClosing : keep '}' = true) : follow depth (w.filter keep) = follow depth w := by
  cases depth with
  | succ depth => rw [follow_succ, follow_succ, nesting_filter keepsOpening keepsClosing]
  | zero =>
    induction w with
    | nil => rfl
    | cons c w ih =>
      by_cases opens : c = '{'
      · rw [opens, List.filter_cons_of_pos keepsOpening, follow, follow, if_pos rfl, if_pos rfl,
          follow_succ, follow_succ, nesting_filter keepsOpening keepsClosing]
      · rw [follow, if_neg opens, ← ih, List.filter_cons]
        split
        · rw [follow, if_neg opens]
        · rfl

private theorem follow_lines (t : Text) :
    follow depth (t.fullLines.flatten ++ t.lastLine) = follow depth t := by
  rw [Text.flatten_fullLines_append_lastLine, follow_filter (by decide) (by decide)]

private theorem follow_braces (t : Text) : follow depth t.braces = follow depth (codeOf t.pieces) :=
  follow_filter (by decide) (by decide)

private theorem follow_flatMap_braces (lines : List Text) :
    follow depth (lines.flatMap Text.braces) =
      follow depth (lines.flatMap fun line => codeOf line.pieces) := by
  have filtered : lines.flatMap Text.braces =
      (lines.flatMap fun line => codeOf line.pieces).filter (isBracket '{' '}') :=
    List.filter_flatMap.symm
  rw [filtered, follow_filter (by decide) (by decide)]

end Follow

/-! ### The state after some lines -/

/-- The state before a line, once it is known whether a function starts there. -/
def enter (state : Option Nat) (line : Text) : Option Nat :=
  state.or (if line.trim.startsWith Keyword.function then some 0 else none)

/-- The state after one more line. -/
def advance (state : Option Nat) (line : Text) : Option Nat :=
  (enter state line).bind (follow · line.braces)

/-- The state of a script after some of its lines: the number of braces that are open inside a
function, or none outside all functions. -/
def stateAfter (lines : List Text) : Option Nat :=
  lines.foldl advance none

section State

variable {state : Option Nat} {line : Text} {lines : List Text}

private theorem advance_trim : advance state line.trim = advance state line := by
  rw [advance, advance, enter, enter, Text.trim_trim, Text.braces, Text.braces,
    Text.codeIn_trim isBrace_of_isBlank]

/-- A blank line leaves the state as it is. -/
theorem advance_of_trim_eq_nil (blank : line.trim = []) : advance state line = state := by
  have silent := Text.Reads.braces_of_trim_eq_nil blank
  cases state with
  | none =>
    rw [advance, enter, blank]
    rfl
  | some depth =>
    rw [advance, silent]
    cases depth <;> rfl

private theorem foldl_advance_of_starts (starts : line.trim.startsWith Keyword.function = true) :
    (line :: lines).foldl advance none = (line :: lines).foldl advance (some 0) := by
  rw [List.foldl_cons, List.foldl_cons, advance, enter, starts]
  rfl

/-- The state after more lines is reached from that before them. -/
theorem stateAfter_append {more : List Text} :
    stateAfter (lines ++ more) = more.foldl advance (stateAfter lines) :=
  List.foldl_append

/-- Blanks around lines and blank lines do not matter. -/
theorem foldl_advance_filter :
    ((lines.map Text.trim).filter (· ≠ [])).foldl advance state = lines.foldl advance state := by
  induction lines generalizing state with
  | nil => rfl
  | cons line lines ih =>
    rw [List.map_cons, List.foldl_cons]
    by_cases blank : line.trim = []
    · rw [List.filter_cons_of_neg (by simpa using blank), ih, advance_of_trim_eq_nil blank]
    · rw [List.filter_cons_of_pos (by simpa using blank), List.foldl_cons, ih, advance_trim]

private theorem flatMap_braces_trim :
    ((lines.map Text.trim).filter (· ≠ [])).flatMap Text.braces = lines.flatMap Text.braces := by
  rw [List.filter_map, List.flatMap_map, ← Text.Reads.flatMap_braces_filter lines]
  exact List.flatMap_congr fun line _ => Text.codeIn_trim isBrace_of_isBlank line

/-- Inside a function the braces of the lines are followed as long as it is open. -/
theorem foldl_advance_of_follow {depth final : Nat}
    (reached : follow depth (lines.flatMap Text.braces) = some final) :
    lines.foldl advance (some depth) = some final := by
  induction lines generalizing depth with
  | nil => cases depth <;> exact reached
  | cons line lines ih =>
    rw [List.flatMap_cons] at reached
    obtain ⟨middle, first, later⟩ := follow_append_eq_some.mp reached
    have here : advance (some depth) line = some middle := first
    rw [List.foldl_cons, here, ih later]

/-- Where no function starts only the braces matter. -/
theorem foldl_advance_of_not_starts
    (none : ∀ line ∈ lines, Text.startsWith (Text.trim line) Keyword.function = false) :
    lines.foldl advance state = state.bind (follow · (lines.flatMap Text.braces)) := by
  induction lines generalizing state with
  | nil => rcases state with _ | _ | _ <;> rfl
  | cons line lines ih =>
    have here : advance state line = state.bind (follow · line.braces) := by
      rw [advance, enter, none line List.mem_cons_self]
      cases state <;> rfl
    rw [List.foldl_cons, here, ih fun other later => none other (List.mem_cons_of_mem _ later),
      List.flatMap_cons, Option.bind_assoc]
    simp only [follow_append]

end State

/-! ### Functions among lines -/

/-- The lines of a block are counted by its code. -/
theorem count_block {t : Text} (free : t.CommentFree) {header inside rest : List Piece}
    (read : t.pieces = header ++ .code '{' :: (inside ++ .code '}' :: rest)) :
    (spell (header ++ .code '{' :: (inside ++ [.code '}']))).count '\n' =
      (codeOf header ++ '{' :: codeOf inside).count '\n' := by
  have parts : ∀ p ∈ header ++ .code '{' :: (inside ++ [.code '}']), p ∈ t.pieces := by
    rw [read]
    intro p member
    simp only [List.mem_append, List.mem_cons] at member ⊢
    tauto
  rw [← count_codeOf (fun p member => (Text.scanned_pieces _).wellFormed p (parts p member))
    fun p member => free p (parts p member)]
  simp

section Cut

variable {ls : List Text} (free : ∀ line ∈ ls, Text.CommentFree line)

include free

/-- A block that lines start with ends on the line where its braces are matched. -/
theorem exists_of_cutBlock?_unlines (inLine : ∀ line ∈ ls, '\n' ∉ line) (nonempty : ls ≠ [])
    {block after : Text} (cut : (Text.unlines ls).cutBlock? = some (block, after)) :
    ∃ before line rest depth, ls = before ++ line :: rest ∧ before.length = block.count '\n' ∧
      follow 0 (before.flatMap Text.braces) = some depth ∧ follow depth line.braces = none := by
  have whole := (Text.Reads.unlines free).free
  have lines : (Text.unlines ls).splitOn '\n' = ls :=
    List.splitOn_intercalate '\n' inLine nonempty
  obtain ⟨header, inside, rest, read, first, balanced, rfl, -⟩ := Text.exists_of_cutBlock? cut
  -- The code of the lines is that of the whole text between its line feeds.
  have code := whole.splitOn_codeOf.symm
  have opened : follow 0 (codeOf header ++ '{' :: codeOf inside) = some 1 := by
    rw [follow_block (mt mem_codeOf.mp first), balanced]
    rfl
  have block := count_block whole read
  have split : codeOf (Text.unlines ls).pieces =
      (codeOf header ++ '{' :: codeOf inside) ++ '}' :: codeOf rest := by
    rw [read]
    simp
  rw [lines, split, Text.splitOn_append, List.map_eq_append_iff] at code
  generalize codeOf header ++ '{' :: codeOf inside = word at *
  obtain ⟨before, more, rfl, earlier, later⟩ := code
  obtain ⟨line, more, rfl, here, -⟩ := List.map_eq_cons_iff.mp later
  rw [← follow_lines] at opened
  obtain ⟨depth, reached, closing⟩ := follow_append_eq_some.mp opened
  refine ⟨before, line, more, depth, rfl, ?_, ?_, ?_⟩
  · rw [block, ← Text.length_fullLines, ← earlier, List.length_map]
  · rw [follow_flatMap_braces, ← reached, ← earlier]
    rfl
  · rw [follow_braces, here, follow_append, closing]
    rfl

/-- Without a block the braces of the lines leave a function open. -/
theorem exists_follow_of_cutBlock?_eq_none (uncut : (Text.unlines ls).cutBlock? = none) :
    ∃ depth, follow 0 (ls.flatMap Text.braces) = some depth := by
  rw [← (Text.Reads.unlines free).braces, follow_braces]
  cases opens : splitAtCode? '{' (Text.unlines ls).pieces with
  | none => exact ⟨0, follow_header (mt mem_codeOf.mp (splitAtCode?_eq_none_iff.mp opens))⟩
  | some parts =>
    obtain ⟨header, opened⟩ := parts
    obtain ⟨whole, first⟩ := eq_of_splitAtCode? opens
    have unclosed : splitAtClose? '{' '}' 0 opened = none := by
      cases closes : splitAtClose? '{' '}' 0 opened with
      | none => rfl
      | some parts => simp [Text.cutBlock?, opens, closes] at uncut
    obtain ⟨depth, reached⟩ := nesting_of_splitAtClose?_eq_none (by decide) unclosed
    refine ⟨depth + 1, ?_⟩
    rw [whole, codeOf_append, codeOf_cons_code, follow_block (mt mem_codeOf.mp first), reached]
    rfl

end Cut

/-- One step of taking lines apart leads from outside all functions to outside. -/
theorem Takes.exists_stateAfter {lines rest : List (Nat × Text)} {items : List Item}
    (takes : Takes lines items rest) (each : ∀ line ∈ lines.map (·.2), TrimmedLine line) :
    ∃ taken, lines = taken ++ rest ∧ stateAfter (taken.map (·.2)) = none := by
  -- A line without the keyword is taken alone.
  have single : ∀ (n : Nat) (line : Text), TrimmedLine line →
      line.startsWith Keyword.function = false → stateAfter ([(n, line)].map (·.2)) = none := by
    intro n line code noFunction
    refine foldl_advance_of_not_starts fun other member => ?_
    rwa [List.mem_singleton.mp member, code.trimmed]
  cases takes with
  | @importLine n line rest starts =>
    have noFunction : line.startsWith Keyword.function = false :=
      startsWith_eq_false starts (by decide)
    exact ⟨[(n, line)], rfl, single n line (each line List.mem_cons_self) noFunction⟩
  | @globalLine n line rest starts =>
    have noFunction : line.startsWith Keyword.function = false :=
      startsWith_eq_false starts (by decide)
    exact ⟨[(n, line)], rfl, single n line (each line List.mem_cons_self) noFunction⟩
  | @statement n line rest _ _ noFunction =>
    exact ⟨[(n, line)], rfl, single n line (each line List.mem_cons_self) noFunction⟩
  | @function n line block after rest starts cut =>
    obtain ⟨before, last, more, depth, whole, length, opened, closes⟩ :=
      exists_of_cutBlock?_unlines (fun l member => (each l member).free)
        (fun l member => (each l member).inLine) (List.cons_ne_nil _ _) cut
    refine ⟨((n, line) :: rest).take (block.count '\n' + 1), ?_, ?_⟩
    · rw [← List.drop_succ_cons, List.take_append_drop]
    · have taken : (((n, line) :: rest).take (block.count '\n' + 1)).map (·.2) =
          before ++ [last] := by
        rw [List.map_take, whole, ← length, List.take_length_add_append]
        rfl
      have starts' : line.trim.startsWith Keyword.function = true := by
        rwa [(each line List.mem_cons_self).trimmed]
      rw [List.take_succ_cons, List.map_cons] at taken ⊢
      rw [stateAfter, foldl_advance_of_starts starts', taken, List.foldl_append,
        foldl_advance_of_follow opened]
      exact closes

/-- So do all steps. -/
theorem Reaches.exists_stateAfter {lines rest : List (Nat × Text)} (reached : Reaches lines rest)
    (each : ∀ line ∈ lines.map (·.2), TrimmedLine line) :
    ∃ taken, lines = taken ++ rest ∧ stateAfter (taken.map (·.2)) = none := by
  induction reached with
  | start => exact ⟨[], rfl, rfl⟩
  | @step left rest items reached takes ih =>
    obtain ⟨taken, rfl, outside⟩ := ih
    obtain ⟨more, rfl, outside'⟩ := takes.exists_stateAfter fun line member => each line (by
      rw [List.map_append]
      exact List.mem_append_right _ member)
    refine ⟨taken ++ more, (List.append_assoc ..).symm, ?_⟩
    rw [List.map_append, stateAfter_append, outside]
    exact outside'

private theorem Taken.reaches_nil {lines : List (Nat × Text)} {items : List Item}
    (taken : Taken lines items) : Reaches lines [] := by
  induction taken with
  | nil => exact .start
  | step takes later ih => exact (Reaches.step .start takes).trans ih

/-! ### The function that is left open -/

/-- Whether the function on a line, counted from zero, is left open: it starts outside all others,
and nothing closes it. -/
def LeftOpen (lines : List Text) (i : Nat) : Prop :=
  ∃ before line after, lines = before ++ line :: after ∧ before.length = i ∧
    stateAfter before = none ∧ line.trim.startsWith Keyword.function = true ∧
    ∃ depth, follow 0 ((line :: after).flatMap Text.braces) = some depth

namespace LeftOpen

variable {lines : List Text} {i j : Nat}

/-- From its line on a function that is left open is not left. -/
theorem stateAfter_take_ne_none (opened : LeftOpen lines i) (behind : i < j) :
    stateAfter (lines.take j) ≠ none := by
  obtain ⟨before, line, after, rfl, rfl, outside, starts, depth, followed⟩ := opened
  obtain ⟨k, rfl⟩ := Nat.exists_eq_add_of_lt behind
  have taken : (before ++ line :: after).take (before.length + k + 1) =
      before ++ line :: after.take k := by
    simp [Nat.add_assoc, List.take_append]
  have parts : (line :: after).flatMap Text.braces =
      (line :: after.take k).flatMap Text.braces ++ (after.drop k).flatMap Text.braces := by
    rw [← List.flatMap_append, List.cons_append, List.take_append_drop]
  rw [parts] at followed
  obtain ⟨middle, reached, -⟩ := follow_append_eq_some.mp followed
  rw [taken, stateAfter_append, outside, foldl_advance_of_starts starts,
    foldl_advance_of_follow reached]
  exact Option.some_ne_none middle

/-- Behind a function that is left open the state is inside of it. -/
theorem stateAfter_ne_none (opened : LeftOpen lines i) : stateAfter lines ≠ none := by
  have later := opened.stateAfter_take_ne_none (Nat.lt_succ_of_le (Nat.le_max_left i lines.length))
  rwa [List.take_of_length_le (Nat.le_succ_of_le (Nat.le_max_right i lines.length))] at later

private theorem stateAfter_take (opened : LeftOpen lines i) : stateAfter (lines.take i) = none := by
  obtain ⟨before, line, after, rfl, rfl, outside, -⟩ := opened
  rwa [List.take_left]

/-- At most one function is left open. -/
theorem unique (opened : LeftOpen lines i) (opened' : LeftOpen lines j) : i = j := by
  rcases Nat.lt_trichotomy i j with earlier | same | later
  · exact absurd opened'.stateAfter_take (opened.stateAfter_take_ne_none earlier)
  · exact same
  · exact absurd opened.stateAfter_take (opened'.stateAfter_take_ne_none later)

end LeftOpen

/-! ### Lines of code among parts -/

/-- The lines of code among the parts between line feeds, `start` parts being before them. -/
def codeParts : Nat → List Text → List (Nat × Text)
  | _, [] => []
  | start, part :: parts =>
    if part.trim = [] then codeParts (start + 1) parts
    else (start + 1, part.trim) :: codeParts (start + 1) parts

private theorem codeParts_eq (start : Nat) (parts : List Text) :
    codeParts start parts =
      ((parts.zipIdx start).map fun x => (x.2 + 1, x.1.trim)).filter (·.2 ≠ []) := by
  induction parts generalizing start with
  | nil => rfl
  | cons part parts ih =>
    rw [codeParts, List.zipIdx_cons, List.map_cons, List.filter_cons, ih]
    by_cases blank : part.trim = [] <;> simp [blank]

private theorem codeLines_eq_codeParts (text : Text) :
    codeLines text = codeParts 0 (text.withoutComments.splitOn '\n') := by
  have parts : ∀ (start : Nat) (parts : List Text),
      codeParts start (Text.linesOfParts parts) = codeParts start parts := by
    intro start parts
    fun_induction Text.linesOfParts parts generalizing start with
    | case1 => rfl
    | case2 => rfl
    | case3 last nonempty => rfl
    | case4 line rest more ih => simp only [codeParts, Text.trim_dropReturn, ih]
  rw [← parts, codeParts_eq, codeLines, Text.numberedLines, List.map_map]
  rfl

private theorem map_snd_codeParts (start : Nat) (parts : List Text) :
    (codeParts start parts).map (·.2) = (parts.map Text.trim).filter (· ≠ []) := by
  induction parts generalizing start with
  | nil => rfl
  | cons part parts ih =>
    rw [codeParts, List.map_cons, List.filter_cons]
    by_cases blank : part.trim = [] <;> simp [blank, ih]

/-- The place of a line of code among the parts. -/
theorem exists_part_of_codeParts {start n : Nat} {line : Text} {parts : List Text}
    {before rest : List (Nat × Text)}
    (lines : codeParts start parts = before ++ (n, line) :: rest) :
    ∃ earlier part later, parts = earlier ++ part :: later ∧ n = start + earlier.length + 1 ∧
      Text.trim part = line ∧ codeParts start earlier = before ∧
      ∃ next, codeParts next later = rest := by
  induction parts generalizing start before with
  | nil => simp [codeParts] at lines
  | cons part parts ih =>
    rw [codeParts] at lines
    by_cases blank : part.trim = []
    · rw [if_pos blank] at lines
      obtain ⟨earlier, part', later, rfl, rfl, trimmed, rfl, further⟩ := ih lines
      refine ⟨part :: earlier, part', later, rfl, ?_, trimmed, ?_, further⟩
      · rw [List.length_cons]
        omega
      · rw [codeParts, if_pos blank]
    · rw [if_neg blank] at lines
      cases before with
      | nil =>
        cases lines
        exact ⟨[], part, parts, rfl, rfl, rfl, rfl, _, rfl⟩
      | cons first before =>
        rw [List.cons_append] at lines
        obtain ⟨rfl, more⟩ := List.cons.inj lines
        obtain ⟨earlier, part', later, rfl, rfl, trimmed, rfl, further⟩ := ih more
        refine ⟨part :: earlier, part', later, rfl, ?_, trimmed, ?_, further⟩
        · rw [List.length_cons]
          omega
        · rw [codeParts, if_neg blank]

/-- A script that is not taken apart has a function that is left open, and is refused on its
line. -/
theorem exists_leftOpen_of_ofText {text : Text} {catalog : Catalog} {problem : Diagnostic}
    (failed : ofText text catalog = .error problem) :
    ∃ i, LeftOpen (text.withoutComments.splitOn '\n') i ∧
      problem = Problem.openBrace.onLine (i + 1) := by
  obtain ⟨n, line, rest, reached, starts, uncut, rfl⟩ :=
    itemsOfLines_eq_error_iff.mp (ofText_eq_error_iff.mp failed)
  obtain ⟨taken, whole, outside⟩ :=
    reached.exists_stateAfter fun line => trimmedLine_of_mem_codeLines
  obtain ⟨depth, followed⟩ := exists_follow_of_cutBlock?_eq_none (fun l member => by
    have listed : l ∈ (codeLines text).map (·.2) := by
      rw [whole, List.map_append]
      exact List.mem_append_right _ member
    exact (trimmedLine_of_mem_codeLines listed).free) uncut
  rw [codeLines_eq_codeParts] at whole
  obtain ⟨earlier, part, later, parts, rfl, rfl, rfl, next, rfl⟩ := exists_part_of_codeParts whole
  refine ⟨earlier.length, ⟨earlier, part, later, parts, rfl, ?_, starts, depth, ?_⟩, ?_⟩
  · rwa [map_snd_codeParts, stateAfter, foldl_advance_filter] at outside
  · rw [map_snd_codeParts, List.flatMap_cons, flatMap_braces_trim] at followed
    rw [List.flatMap_cons, ← followed]
    exact congrArg (fun word => follow 0 (word ++ _))
      (Text.codeIn_trim isBrace_of_isBlank part).symm
  · rw [Nat.zero_add]

/-- A script that is taken apart leaves no function open. -/
theorem stateAfter_of_ofText {text : Text} {catalog : Catalog} {script : Script}
    (taken : ofText text catalog = .ok script) :
    stateAfter (text.withoutComments.splitOn '\n') = none := by
  obtain ⟨items, taken, -⟩ := exists_of_ofText taken
  obtain ⟨lines, whole, outside⟩ :=
    taken.reaches_nil.exists_stateAfter fun line => trimmedLine_of_mem_codeLines
  rw [List.append_nil] at whole
  rwa [← whole, codeLines_eq_codeParts, map_snd_codeParts, stateAfter, foldl_advance_filter]
    at outside

end Script

end ScriptLoom
