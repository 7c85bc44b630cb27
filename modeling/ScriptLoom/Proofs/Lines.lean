import ScriptLoom.Proofs.Lists
import ScriptLoom.Proofs.Nesting

/-! # Lines and pieces

Literals do not go over the end of a line, so a text without comments is scanned line by line
(`Text.map_pieces_splitOn`), and lines put together are scanned as they were alone
(`Text.pieces_unlines`). Blanks around a line are code or end up in an open literal; what a blank on
either side keeps, trimming keeps (`Text.trim_induction`).
-/

namespace ScriptLoom

namespace Text

/-! ### Induction on the lines of a text -/

/-- A text is one line, or a line and a text on the lines after it. -/
theorem line_induction {motive : Text → Prop} (last : ∀ line, '\n' ∉ line → motive line)
    (more : ∀ line t, '\n' ∉ line → motive t → motive (line ++ '\n' :: t)) (t : Text) :
    motive t := by
  induction size : t.length using Nat.strong_induction_on generalizing t with
  | _ n ih =>
    by_cases oneLine : '\n' ∈ t
    · obtain ⟨line, rest, rfl, inLine⟩ := List.eq_append_cons_of_mem oneLine
      refine more line rest inLine (ih rest.length ?_ rest rfl)
      rw [← size, List.length_append, List.length_cons]
      omega
    · exact last t oneLine

/-- The first line of a text goes up to its first line feed. -/
theorem splitOn_eq_cons (t : Text) :
    t.splitOn '\n' = t.takeWhile (· ≠ '\n') :: (t.splitOn '\n').tail := by
  induction t with
  | nil => rfl
  | cons c t ih =>
    rw [List.splitOn_cons_eq_if_modifyHead]
    by_cases feed : c = '\n'
    · simp [feed]
    · rw [ih]
      simp [feed]

/-- The lines of the second of two texts, but for the first, are those left after the line feeds
of the first text. -/
theorem drop_splitOn_append (s t : Text) :
    ((s ++ t).splitOn '\n').drop (s.count '\n' + 1) = (t.splitOn '\n').tail := by
  induction s with
  | nil => rw [List.nil_append, List.count_nil, Nat.zero_add, List.drop_one]
  | cons c s ih =>
    rw [List.cons_append, List.splitOn_cons_eq_if_modifyHead]
    by_cases feed : c = '\n'
    · subst feed
      rw [List.count_cons_self, if_pos (by simp), List.drop_succ_cons, ih]
    · rw [List.count_cons_of_ne feed, if_neg (by simp [feed]), splitOn_eq_cons (s ++ t)]
      rw [splitOn_eq_cons (s ++ t)] at ih
      simpa using ih

/-- The lines of a text put behind another one, the line on which they meet apart. -/
theorem splitOn_append_takeWhile (s t : Text) :
    (s ++ t).splitOn '\n' =
      (s ++ t.takeWhile (· ≠ '\n')).splitOn '\n' ++ (t.splitOn '\n').tail := by
  by_cases oneLine : '\n' ∈ t
  · obtain ⟨line, rest, rfl, inLine⟩ := List.eq_append_cons_of_mem oneLine
    have taken : (line ++ '\n' :: rest).takeWhile (· ≠ '\n') = line := by
      rw [takeWhile_append_of_not_mem inLine]
      simp
    rw [taken, List.splitOn_append_cons_self_of_not_mem inLine, List.tail_cons,
      ← List.append_assoc, List.splitOn_append_cons_self]
  · have taken : t.takeWhile (· ≠ '\n') = t := by
      have whole := takeWhile_append_of_not_mem oneLine []
      rwa [List.append_nil, List.takeWhile_nil, List.append_nil] at whole
    rw [taken, List.splitOn_eq_singleton oneLine, List.tail_cons, List.append_nil]

/-- The lines of a text that a line feed ends. -/
def fullLines (t : Text) : List Text :=
  (t.splitOn '\n').dropLast

/-- What a text has behind its last line feed. -/
def lastLine (t : Text) : Text :=
  (t.splitOn '\n').getLastD []

/-- The lines of a text are those that a line feed ends and the last one. -/
theorem splitOn_eq_concat (t : Text) : t.splitOn '\n' = t.fullLines ++ [t.lastLine] := by
  rw [fullLines, lastLine, List.getLastD_eq_getLast?,
    List.getLast?_eq_getLast_of_ne_nil (List.splitOn_ne_nil _ _)]
  exact (List.dropLast_append_getLast _).symm

/-- A text without line feeds has no full line. -/
theorem fullLines_of_not_mem {t : Text} (inLine : '\n' ∉ t) : t.fullLines = [] := by
  rw [fullLines, List.splitOn_eq_singleton inLine]
  rfl

/-- A text without line feeds is its last line. -/
theorem lastLine_of_not_mem {t : Text} (inLine : '\n' ∉ t) : t.lastLine = t := by
  rw [lastLine, List.splitOn_eq_singleton inLine]
  rfl

private theorem fullLines_cons_lineFeed {line : Text} (inLine : '\n' ∉ line) (t : Text) :
    fullLines (line ++ '\n' :: t) = line :: t.fullLines := by
  rw [fullLines, List.splitOn_append_cons_self_of_not_mem inLine, splitOn_eq_concat t,
    ← List.cons_append, List.dropLast_concat]

/-- A line before a text leaves its last line. -/
theorem lastLine_cons_lineFeed {line : Text} (inLine : '\n' ∉ line) (t : Text) :
    lastLine (line ++ '\n' :: t) = t.lastLine := by
  rw [lastLine, List.splitOn_append_cons_self_of_not_mem inLine, splitOn_eq_concat t,
    ← List.cons_append, List.getLastD_concat]

/-- A text has as many full lines as line feeds. -/
theorem length_fullLines (t : Text) : t.fullLines.length = t.count '\n' := by
  induction t using line_induction with
  | last line inLine =>
    rw [fullLines_of_not_mem inLine, List.count_eq_zero_of_not_mem inLine]
    rfl
  | more line t inLine ih =>
    rw [fullLines_cons_lineFeed inLine, List.length_cons, ih, List.count_append,
      List.count_eq_zero_of_not_mem inLine, List.count_cons_self, Nat.zero_add]

/-- The lines of a text together are the text without its line feeds. -/
theorem flatten_fullLines_append_lastLine (t : Text) :
    t.fullLines.flatten ++ t.lastLine = t.filter (· ≠ '\n') := by
  have kept : ∀ line : Text, '\n' ∉ line → line.filter (· ≠ '\n') = line := by
    intro line inLine
    rw [List.filter_eq_self]
    intro c member
    simpa using fun same : c = '\n' => inLine (same ▸ member)
  induction t using line_induction with
  | last line inLine =>
    rw [fullLines_of_not_mem inLine, lastLine_of_not_mem inLine, kept line inLine]
    rfl
  | more line t inLine ih =>
    rw [fullLines_cons_lineFeed inLine, lastLine_cons_lineFeed inLine, List.flatten_cons,
      List.append_assoc, ih, List.filter_append, kept line inLine]
    simp

/-- Behind a line feed a text before does not matter to the last line. -/
theorem lastLine_append_of_mem {t : Text} (feed : '\n' ∈ t) (s : Text) :
    (s ++ t).lastLine = t.lastLine := by
  obtain ⟨line, rest, rfl, inLine⟩ := List.eq_append_cons_of_mem feed
  rw [lastLine_cons_lineFeed inLine]
  induction s using line_induction with
  | last first inLine' =>
    rw [← List.append_assoc, lastLine_cons_lineFeed (by simp [inLine, inLine'])]
  | more first s inLine' ih =>
    rw [List.append_assoc, List.cons_append, lastLine_cons_lineFeed inLine', ih]

/-- A text without line feeds goes on with the last line before it. -/
theorem lastLine_append_of_not_mem {t : Text} (inLine : '\n' ∉ t) (s : Text) :
    (s ++ t).lastLine = s.lastLine ++ t := by
  induction s using line_induction with
  | last first inLine' =>
    rw [lastLine_of_not_mem inLine', lastLine_of_not_mem (by simp [inLine, inLine'])]
  | more first s inLine' ih =>
    rw [List.append_assoc, List.cons_append, lastLine_cons_lineFeed inLine',
      lastLine_cons_lineFeed inLine', ih]

/-- The lines of two texts together: those of each, and the one on which they meet. -/
theorem splitOn_append (s t : Text) :
    (s ++ t).splitOn '\n' =
      s.fullLines ++ (s.lastLine ++ t.takeWhile (· ≠ '\n')) :: (t.splitOn '\n').tail := by
  induction s using line_induction with
  | last line inLine =>
    have tail := drop_splitOn_append line t
    rw [List.count_eq_zero_of_not_mem inLine, Nat.zero_add, List.drop_one] at tail
    rw [fullLines_of_not_mem inLine, lastLine_of_not_mem inLine, splitOn_eq_cons (line ++ t), tail,
      takeWhile_append_of_not_mem inLine, List.nil_append]
  | more line s inLine ih =>
    rw [fullLines_cons_lineFeed inLine, lastLine_cons_lineFeed inLine, List.append_assoc,
      List.cons_append, List.splitOn_append_cons_self_of_not_mem inLine, ih, List.cons_append]

/-- A line of the first of two texts is a line of both together, or it is the last one, which ends
as the text does. -/
theorem mem_splitOn_append_or {s part : Text} {c : Char} (ends : s.getLast? = some c)
    (inLine : c ≠ '\n') (member : part ∈ s.splitOn '\n') (t : Text) :
    part ∈ (s ++ t).splitOn '\n' ∨ part.getLast? = some c := by
  induction s using line_induction with
  | last line noFeed =>
    rw [List.splitOn_eq_singleton noFeed, List.mem_singleton] at member
    exact .inr (member ▸ ends)
  | more line s noFeed ih =>
    rw [List.splitOn_append_cons_self_of_not_mem noFeed] at member
    rw [List.append_assoc, List.cons_append, List.splitOn_append_cons_self_of_not_mem noFeed]
    rcases List.mem_cons.mp member with rfl | later
    · exact .inl List.mem_cons_self
    · have rest : s.getLast? = some c := by
        cases s with
        | nil =>
          rw [List.getLast?_concat] at ends
          exact absurd (Option.some.inj ends).symm inLine
        | cons d s => simpa using ends
      exact (ih rest later).imp_left (List.mem_cons_of_mem _)

/-- The first line of the second of two texts ends a line of both together. -/
theorem exists_mem_splitOn_append (s t : Text) :
    ∃ front, front ++ t.takeWhile (· ≠ '\n') ∈ (s ++ t).splitOn '\n' := by
  induction s using line_induction with
  | last line inLine =>
    refine ⟨line, ?_⟩
    rw [splitOn_eq_cons, takeWhile_append_of_not_mem inLine]
    exact List.mem_cons_self
  | more line s inLine ih =>
    obtain ⟨front, member⟩ := ih
    refine ⟨front, ?_⟩
    rw [List.append_assoc, List.cons_append, List.splitOn_append_cons_self_of_not_mem inLine]
    exact List.mem_cons_of_mem _ member

/-- After each line feed of the first of two texts, the rest of it and the second are left. -/
theorem afterLineFeeds_append (s t : Text) :
    afterLineFeeds (s ++ t) = (afterLineFeeds s).map (· ++ t) ++ afterLineFeeds t := by
  induction s with
  | nil => rfl
  | cons c s ih =>
    rw [List.cons_append, afterLineFeeds, afterLineFeeds]
    split
    · rw [ih]
      rfl
    · exact ih

/-- Nothing is left after line feeds that are not there. -/
theorem afterLineFeeds_of_not_mem {s : Text} (inLine : '\n' ∉ s) : afterLineFeeds s = [] := by
  induction s with
  | nil => rfl
  | cons c s ih =>
    rw [afterLineFeeds, if_neg (List.ne_of_not_mem_cons inLine).symm]
    exact ih (List.not_mem_of_not_mem_cons inLine)

/-- Something is left after each line feed. -/
theorem length_afterLineFeeds (s : Text) : (afterLineFeeds s).length = s.count '\n' := by
  induction s with
  | nil => rfl
  | cons c s ih =>
    rw [afterLineFeeds, List.count_cons]
    split
    · next feed => simp [feed, ih]
    · next other => simp [other, ih]

/-- No lines make up the empty text. -/
@[simp]
theorem unlines_nil : unlines [] = [] :=
  rfl

/-- One line makes up a text by itself. -/
@[simp]
theorem unlines_singleton (line : Text) : unlines [line] = line := by
  rw [unlines, join, List.intercalate_singleton]

/-- A line feed stands between the first line and the others. -/
theorem unlines_cons_cons (line next : Text) (ls : List Text) :
    unlines (line :: next :: ls) = line ++ '\n' :: unlines (next :: ls) := by
  simp only [unlines, join, List.intercalate_cons_cons, List.append_assoc, List.singleton_append]

/-- What is put before the first line is before the text. -/
theorem unlines_append_cons (s line : Text) (ls : List Text) :
    unlines ((s ++ line) :: ls) = s ++ unlines (line :: ls) := by
  cases ls with
  | nil => rw [unlines_singleton, unlines_singleton]
  | cons next ls => rw [unlines_cons_cons, unlines_cons_cons, List.append_assoc]

/-- A line feed stands between lines and further lines. -/
theorem unlines_append {ls ms : List Text} (nonempty : ls ≠ []) (nonempty' : ms ≠ []) :
    unlines (ls ++ ms) = unlines ls ++ '\n' :: unlines ms := by
  induction ls with
  | nil => exact absurd rfl nonempty
  | cons line ls ih =>
    cases ls with
    | nil =>
      obtain ⟨next, ms, rfl⟩ := List.exists_cons_of_ne_nil nonempty'
      rw [List.singleton_append, unlines_cons_cons, unlines_singleton]
    | cons next ls =>
      have rest := ih (List.cons_ne_nil _ _)
      rw [List.cons_append] at rest
      rw [List.cons_append, List.cons_append, unlines_cons_cons, unlines_cons_cons, rest,
        List.append_assoc, List.cons_append]

/-- The lines of a text in which each ends with a line feed. -/
theorem splitOn_flatMap {ls : List Text} (inLine : ∀ line ∈ ls, '\n' ∉ line) :
    (ls.flatMap (· ++ ['\n'])).splitOn '\n' = ls ++ [[]] := by
  induction ls with
  | nil => rfl
  | cons line ls ih =>
    obtain ⟨own, later⟩ := List.forall_mem_cons.mp inLine
    rw [List.flatMap_cons, List.append_assoc, List.singleton_append,
      List.splitOn_append_cons_self_of_not_mem own, ih later, List.cons_append]

/-- A text starts with its first line. -/
theorem prefix_unlines (line : Text) (ls : List Text) : line <+: unlines (line :: ls) := by
  cases ls with
  | nil => exact ⟨[], by simp⟩
  | cons next ls =>
    rw [unlines_cons_cons]
    exact List.prefix_append _ _

/-- A line without the carriage return at its end, or the line itself. -/
theorem dropReturn_cases (line : Text) :
    dropReturn line = line ∨ line = dropReturn line ++ ['\r'] := by
  unfold dropReturn
  split
  · next before reversed =>
    right
    have := congrArg List.reverse reversed
    simpa using this
  · exact .inl rfl

/-- What is gathered over the lines of a text is gathered over the parts between line feeds, if a
carriage return at the end and an empty line add nothing. -/
theorem flatMap_lines {α : Type} {gather : Text → List α} (empty : gather [] = [])
    (returned : ∀ line, gather (dropReturn line) = gather line) (t : Text) :
    t.lines.flatMap gather = (t.splitOn '\n').flatMap gather := by
  have parts : ∀ parts : List Text,
      (linesOfParts parts).flatMap gather = parts.flatMap gather := by
    intro parts
    fun_induction linesOfParts parts with
    | case1 => rfl
    | case2 => simp [empty]
    | case3 => rfl
    | case4 line rest _ ih => rw [List.flatMap_cons, List.flatMap_cons, ih, returned]
  exact parts _

/-- A property of lines that the empty line has, and that a carriage return at the end does not
change, is the same for the lines and for the parts between line feeds. -/
theorem forall_mem_lines (property : Text → Prop) (empty : property [])
    (returned : ∀ line, property (dropReturn line) ↔ property line) (t : Text) :
    (∀ line ∈ t.lines, property line) ↔ ∀ line ∈ t.splitOn '\n', property line := by
  classical
  let failures : Text → List Unit := fun line => if property line then [] else [()]
  have gathered : t.lines.flatMap failures = (t.splitOn '\n').flatMap failures :=
    flatMap_lines (by simp [failures, empty]) (by simp [failures, returned]) t
  have none : ∀ ls : List Text, ls.flatMap failures = [] ↔ ∀ line ∈ ls, property line := by
    intro ls
    simp [failures, List.flatMap_eq_nil_iff]
  rw [← none, gathered, none]

/-- A carriage return at the end is trimmed. -/
theorem trim_concat_blank (t : Text) {c : Char} (blank : isBlank c = true) :
    trim (t ++ [c]) = trim t := by
  unfold trim trimStart trimEnd dropEndWhile
  by_cases blanks : ∀ d ∈ t, isBlank d = true
  · have start : t.dropWhile isBlank = [] := by
      simpa using blanks
    have all : (t ++ [c]).dropWhile isBlank = [] := by
      simp only [List.dropWhile_eq_nil_iff, List.mem_append, List.mem_singleton]
      rintro d (member | rfl)
      · exact blanks d member
      · exact blank
    rw [start, all]
  · rw [List.dropWhile_append]
    simp only [List.isEmpty_iff, List.dropWhile_eq_nil_iff, blanks, ↓reduceIte]
    rw [List.reverse_append, List.reverse_singleton, List.singleton_append,
      List.dropWhile_cons_of_pos blank]

/-- Trimming takes the carriage return along. -/
@[simp]
theorem trim_dropReturn (line : Text) : trim (dropReturn line) = trim line := by
  rcases dropReturn_cases line with same | whole
  · rw [same]
  · conv_rhs => rw [whole, trim_concat_blank _ (by decide)]

end Text

/-! ### Scanning line by line -/

/-- Only a line feed of code and a comment go over the end of a line. -/
theorem Piece.WellFormed.not_mem_lineFeed {p : Piece} (formed : p.WellFormed)
    (noComment : p.isComment = false) (noFeed : p ≠ .code '\n') : '\n' ∉ p.text := by
  cases formed with
  | code => simpa [text, eq_comm] using noFeed
  | line => cases noComment
  | block => cases noComment
  | literal opens grammar =>
    have noLineFeed := (Region.ofQuote?_eq_some opens).2.1
    simpa [text, noLineFeed.symm] using grammar.not_mem_lineFeed noLineFeed

/-- The only line feeds of a text without comments are code. -/
theorem not_mem_spell {ps : List Piece} (formed : ∀ p ∈ ps, p.WellFormed)
    (free : ∀ p ∈ ps, p.isComment = false) (noFeed : .code '\n' ∉ ps) : '\n' ∉ spell ps := by
  intro member
  obtain ⟨p, present, inside⟩ := List.mem_flatMap.mp member
  refine (formed p present).not_mem_lineFeed (free p present) ?_ inside
  rintro rfl
  exact noFeed present

/-- Without comments all line feeds are in the code. -/
theorem count_codeOf {ps : List Piece} (formed : ∀ p ∈ ps, p.WellFormed)
    (free : ∀ p ∈ ps, p.isComment = false) :
    (codeOf ps).count '\n' = (spell ps).count '\n' := by
  induction ps with
  | nil => rfl
  | cons p ps ih =>
    have rest := ih (fun q later => formed q (List.mem_cons_of_mem _ later))
      fun q later => free q (List.mem_cons_of_mem _ later)
    rw [spell_cons, List.count_append, ← rest]
    cases p with
    | code c =>
      rw [codeOf_cons_code, ← List.singleton_append, List.count_append]
      rfl
    | region kind body closed =>
      have inLine := (formed _ List.mem_cons_self).not_mem_lineFeed (free _ List.mem_cons_self)
        (by simp)
      rw [codeOf_cons_region, List.count_eq_zero_of_not_mem inLine, Nat.zero_add]

namespace Text

/-- The first line of a text without comments is scanned alone. -/
theorem pieces_line_append {line t : Text} (inLine : '\n' ∉ line)
    (free : (line ++ '\n' :: t).CommentFree) :
    pieces (line ++ '\n' :: t) = line.pieces ++ .code '\n' :: t.pieces := by
  have scanned := scanned_pieces (line ++ '\n' :: t)
  have spelled := spell_pieces (line ++ '\n' :: t)
  unfold CommentFree at free
  generalize pieces (line ++ '\n' :: t) = ps at *
  have feed : .code '\n' ∈ ps := by
    by_contra noFeed
    refine not_mem_spell scanned.wellFormed free noFeed ?_
    rw [spelled]
    simp
  obtain ⟨qs, rs, rfl, noFeed⟩ := List.eq_append_cons_of_mem feed
  have left : Scanned qs := scanned.part (List.prefix_append _ _).isInfix
  have right : Scanned rs :=
    scanned.part ((List.suffix_cons _ rs).trans (List.suffix_append _ _)).isInfix
  have inFirst : '\n' ∉ spell qs :=
    not_mem_spell left.wellFormed (fun p member => free p (List.mem_append_left _ member)) noFeed
  have same : spell qs = line ∧ spell rs = t := by
    rw [spell_append, spell_cons] at spelled
    have parts := congrArg (List.splitOn '\n') spelled
    rw [Piece.text, List.singleton_append, List.splitOn_append_cons_self_of_not_mem inFirst,
      List.splitOn_append_cons_self_of_not_mem inLine] at parts
    have first := (List.cons.inj parts).1
    rw [first] at spelled
    exact ⟨first, by simpa [Piece.text] using spelled⟩
  rw [← same.1, ← same.2, pieces_spell left, pieces_spell right]

/-- The lines of a text without comments have none. -/
theorem CommentFree.of_line_append {line t : Text} (inLine : '\n' ∉ line)
    (free : (line ++ '\n' :: t).CommentFree) : line.CommentFree ∧ t.CommentFree := by
  unfold CommentFree at free ⊢
  rw [pieces_line_append inLine free] at free
  exact ⟨fun p member => free p (List.mem_append_left _ member),
    fun p member => free p (List.mem_append_right _ (List.mem_cons_of_mem _ member))⟩

/-- A line without comments holds no line feed of code. -/
theorem lineFeed_not_mem_pieces {line : Text} (inLine : '\n' ∉ line) :
    .code '\n' ∉ line.pieces := by
  intro member
  refine inLine ?_
  rw [← spell_pieces line]
  exact List.mem_flatMap.mpr ⟨_, member, List.mem_singleton_self _⟩

/-- **Scanning goes line by line.** The pieces of the lines of a text without comments are the
pieces of the text between its line feeds. -/
theorem map_pieces_splitOn {t : Text} (free : t.CommentFree) :
    (t.splitOn '\n').map pieces = t.pieces.splitOn (.code '\n') := by
  induction t using line_induction with
  | last line inLine =>
    rw [List.splitOn_eq_singleton inLine,
      List.splitOn_eq_singleton (lineFeed_not_mem_pieces inLine)]
    rfl
  | more line t inLine ih =>
    rw [pieces_line_append inLine free, List.splitOn_append_cons_self_of_not_mem inLine,
      List.splitOn_append_cons_self_of_not_mem (lineFeed_not_mem_pieces inLine), List.map_cons,
      ih (free.of_line_append inLine).2]

/-- The lines of a text without comments have none. -/
theorem CommentFree.of_mem_splitOn {t line : Text} (free : t.CommentFree)
    (member : line ∈ t.splitOn '\n') : line.CommentFree := by
  induction t using line_induction with
  | last first inLine =>
    rw [List.splitOn_eq_singleton inLine, List.mem_singleton] at member
    exact member ▸ free
  | more first t inLine ih =>
    obtain ⟨here, later⟩ := free.of_line_append inLine
    rw [List.splitOn_append_cons_self_of_not_mem inLine] at member
    rcases List.mem_cons.mp member with rfl | rest
    · exact here
    · exact ih later rest

/-- A text without comments does not run to the end of what it is put before. -/
theorem CommentFree.endsWithText {t : Text} (free : t.CommentFree) :
    ∀ p ∈ t.pieces, p.endsWithText = false := by
  intro p member
  have noComment := free p member
  rcases p with c | ⟨kind, body, closed⟩
  · rfl
  · cases kind
    · cases noComment
    · rfl
    · rfl

/-- Lines without comments are scanned one by one. -/
theorem pieces_unlines {ls : List Text} (free : ∀ line ∈ ls, CommentFree line) :
    pieces (unlines ls) = List.intercalate [.code '\n'] (ls.map pieces) := by
  induction ls with
  | nil =>
    rw [unlines_nil, pieces_nil]
    rfl
  | cons line ls ih =>
    have here := free line List.mem_cons_self
    have rest := ih fun other member => free other (List.mem_cons_of_mem _ member)
    cases ls with
    | nil => rw [unlines_singleton, List.map_singleton, List.intercalate_singleton]
    | cons next ls =>
      rw [unlines_cons_cons, pieces_append_lineFeed here.endsWithText, rest]
      simp only [List.map_cons, List.intercalate_cons_cons, List.append_assoc,
        List.singleton_append]

end Text

/-! ### Blanks around a line -/

/-- A text is what is left after trimming with blanks around it. -/
theorem Text.exists_eq_append_trim (t : Text) :
    ∃ before after : Text, t = before ++ (t.trim ++ after) ∧ (∀ c ∈ before, isBlank c = true) ∧
      ∀ c ∈ after, isBlank c = true := by
  refine ⟨t.takeWhile isBlank, t.trimStart.rtakeWhile isBlank, ?_, fun c => List.mem_takeWhile_imp,
    fun c => List.mem_rtakeWhile_imp⟩
  have ending : t.trim ++ t.trimStart.rtakeWhile isBlank = t.trimStart :=
    List.rdropWhile_append_rtakeWhile
  rw [ending]
  exact List.takeWhile_append_dropWhile.symm

/-- Trimming leaves nothing exactly of blanks. -/
theorem Text.trim_eq_nil_iff {t : Text} : t.trim = [] ↔ ∀ c ∈ t, isBlank c = true := by
  constructor
  · intro empty c member
    obtain ⟨before, after, whole, blank, blank'⟩ := exists_eq_append_trim t
    rw [whole, empty, List.nil_append] at member
    exact (List.mem_append.mp member).elim (blank c) (blank' c)
  · intro blank
    rw [trim, trimStart, List.dropWhile_eq_nil_iff.mpr blank]
    rfl

/-- What a blank on either side keeps goes from a trimmed text to the text. -/
theorem Text.trim_induction {motive : Text → Prop}
    (cons : ∀ {s : Text} {c : Char}, isBlank c = true → motive s → motive (c :: s))
    (concat : ∀ {s : Text} {c : Char}, isBlank c = true → motive s → motive (s ++ [c]))
    {t : Text} (trimmed : motive t.trim) : motive t := by
  obtain ⟨before, after, whole, blank, blank'⟩ := exists_eq_append_trim t
  generalize t.trim = s at whole trimmed
  subst whole
  have ended : motive (s ++ after) := by
    induction after using List.reverseRecOn with
    | nil => rwa [List.append_nil]
    | append_singleton after c ih =>
      rw [← List.append_assoc]
      apply concat (blank' c (by simp))
      exact ih fun d member => blank' d (List.mem_append_left _ member)
  induction before with
  | nil => exact ended
  | cons c before ih =>
    apply cons (blank c List.mem_cons_self)
    exact ih fun d member => blank d (List.mem_cons_of_mem _ member)

/-- A trimmed text starts with no blank. -/
theorem Text.trimStart_trim (t : Text) : t.trim.trimStart = t.trim := by
  cases trimmed : t.trim with
  | nil => rfl
  | cons c rest =>
    obtain ⟨tail, whole⟩ : t.trim <+: t.trimStart := List.rdropWhile_prefix ..
    have visible := List.head?_dropWhile_not isBlank t
    have start : t.dropWhile isBlank = c :: (rest ++ tail) := by
      rw [← List.cons_append, ← trimmed]
      exact whole.symm
    rw [start] at visible
    exact List.dropWhile_cons_of_neg (by simpa using visible)

/-- A trimmed text stays as it is. -/
theorem Text.trim_trim (t : Text) : t.trim.trim = t.trim := by
  rw [trim, trimStart_trim]
  exact List.rdropWhile_idempotent ..

/-- Trimming leaves a part of a text. -/
theorem Text.trim_isInfix (t : Text) : t.trim <:+: t := by
  obtain ⟨before, after, whole, -, -⟩ := exists_eq_append_trim t
  exact ⟨before, after, by rw [List.append_assoc, ← whole]⟩

/-- A trimmed text ends with no blank. -/
theorem Text.isBlank_getLast?_trim {t : Text} {c : Char} (last : t.trim.getLast? = some c) :
    isBlank c = false := by
  have nonempty : t.trim ≠ [] := by
    intro empty
    rw [empty] at last
    cases last
  have visible := List.rdropWhile_last_not isBlank t.trimStart nonempty
  rw [List.getLast?_eq_some_getLast nonempty] at last
  cases last
  exact Bool.eq_false_iff.mpr visible

namespace Text

/-- A text that ends with a visible character is blanks and its trimmed text. -/
theorem exists_eq_blanks_append_trim {t : Text} {c : Char} (last : t.getLast? = some c)
    (visible : isBlank c = false) :
    ∃ blanks : Text, t = blanks ++ t.trim ∧ ∀ d ∈ blanks, isBlank d = true := by
  obtain ⟨before, after, whole, blank, blank'⟩ := exists_eq_append_trim t
  refine ⟨before, ?_, blank⟩
  cases ending : after.getLast? with
  | none =>
    rw [List.getLast?_eq_none_iff.mp ending, List.append_nil] at whole
    exact whole
  | some d =>
    rw [whole, List.getLast?_append, List.getLast?_append, ending] at last
    obtain rfl : d = c := by simpa using last
    exact absurd (blank' d (List.mem_of_getLast? ending)) (by simp [visible])

/-- Whether a text is one line among any others: not empty, without line feeds and not ending in a
carriage return. -/
structure IsLine (s : Text) : Prop where
  nonempty : s ≠ []
  inLine : '\n' ∉ s
  last : s.getLast? ≠ some '\r'

/-- A line has no carriage return at its end. -/
theorem IsLine.dropReturn_eq {s : Text} (line : s.IsLine) : dropReturn s = s := by
  rcases dropReturn_cases s with same | whole
  · exact same
  · refine absurd ?_ line.last
    rw [whole, List.getLast?_concat]

/-- Lines that are put together are read again. -/
theorem lines_unlines {ls : List Text} (each : ∀ s ∈ ls, IsLine s) : (unlines ls).lines = ls := by
  have parts : linesOfParts ls = ls := by
    fun_induction linesOfParts ls with
    | case1 => rfl
    | case2 => exact absurd rfl (each [] List.mem_cons_self).nonempty
    | case3 => rfl
    | case4 line rest _ ih =>
      rw [(each line List.mem_cons_self).dropReturn_eq,
        ih fun s later => each s (List.mem_cons_of_mem _ later)]
  by_cases empty : ls = []
  · subst empty
    rfl
  · rw [lines, unlines, join, List.splitOn_intercalate '\n' (fun s member => (each s member).inLine)
      empty, parts]

/-- A trimmed text without line feeds is a line. -/
theorem IsLine.of_trim {line : Text} (trimmed : line.trim = line) (nonempty : line ≠ [])
    (inLine : '\n' ∉ line) : line.IsLine := by
  refine ⟨nonempty, inLine, ?_⟩
  intro last
  rw [← trimmed] at last
  exact absurd (isBlank_getLast?_trim last) (by decide)

end Text

/-- Whether a piece is a blank character of code. -/
def Piece.isBlankCode : Piece → Bool
  | .code c => Text.isBlank c
  | .region _ _ _ => false

/-- Pieces without the blank code at both ends. -/
def trimPieces (ps : List Piece) : List Piece :=
  (ps.dropWhile Piece.isBlankCode).rdropWhile Piece.isBlankCode

/-- Trimmed pieces are a part of the pieces. -/
theorem trimPieces_isInfix (ps : List Piece) : trimPieces ps <:+: ps :=
  (List.rdropWhile_prefix _ _).isInfix.trans (List.dropWhile_suffix _).isInfix

namespace Text

/-- The last character of a closed block comment. -/
theorem BlockBody.getLast?_of_closed {body : Text} (closed : BlockBody body true) :
    body.getLast? = some '/' := by
  generalize flag : true = isClosed at closed
  induction closed with
  | close => rfl
  | stop => cases flag
  | char _ rest ih => rw [List.getLast?_cons, ih flag]; rfl

/-- The last character of a closed literal. -/
theorem LiteralBody.getLast?_of_closed {quote : Char} {body : Text}
    (closed : LiteralBody quote body true) : body.getLast? = some quote := by
  generalize flag : true = isClosed at closed
  induction closed with
  | close => rfl
  | stop => cases flag
  | stopEscape => cases flag
  | escape _ rest ih => rw [List.getLast?_cons, List.getLast?_cons, ih flag]; rfl
  | char _ _ _ rest ih => rw [List.getLast?_cons, ih flag]; rfl

end Text

/-- A quote is not blank. -/
theorem Region.isBlank_of_ofQuote? {c : Char} {kind : Region}
    (opens : Region.ofQuote? c = some kind) : Text.isBlank c = false := by
  unfold Region.ofQuote? at opens
  split at opens
  · next quote => subst quote; rfl
  · split at opens
    · next quote => subst quote; rfl
    · cases opens

/-- A comment or literal starts with no blank. -/
theorem Piece.WellFormed.isBlank_head {kind : Region} {body : Text} {closed : Bool}
    (formed : (Piece.region kind body closed).WellFormed) :
    ∃ c rest, body = c :: rest ∧ Text.isBlank c = false := by
  cases formed with
  | line => exact ⟨_, _, rfl, rfl⟩
  | block => exact ⟨_, _, rfl, rfl⟩
  | literal opens => exact ⟨_, _, rfl, Region.isBlank_of_ofQuote? opens⟩

/-- A comment or literal that ends by itself ends with no blank. -/
theorem Piece.WellFormed.isBlank_getLast {kind : Region} {body : Text} {closed : Bool}
    (formed : (Piece.region kind body closed).WellFormed)
    (whole : (Piece.region kind body closed).isWhole = true) :
    ∃ c, body.getLast? = some c ∧ Text.isBlank c = false := by
  rw [Piece.isWhole_iff] at whole
  cases formed with
  | line => cases whole.1
  | block grammar =>
    obtain rfl : closed = true := by simpa [Piece.endsWithText] using whole.2
    refine ⟨'/', ?_, rfl⟩
    rw [List.getLast?_cons, List.getLast?_cons, grammar.getLast?_of_closed]
    rfl
  | @literal quote _ _ _ opens grammar =>
    have noComment := (Region.ofQuote?_eq_some opens).2.2.2
    obtain rfl : closed = true := by
      cases kind <;> simp_all [Piece.endsWithLine]
    refine ⟨quote, ?_, Region.isBlank_of_ofQuote? opens⟩
    rw [List.getLast?_cons, grammar.getLast?_of_closed]
    rfl

/-- Blanks at the beginning are pieces of code. -/
theorem trimStart_spell {ps : List Piece} (formed : ∀ p ∈ ps, p.WellFormed) :
    (spell ps).trimStart = spell (ps.dropWhile Piece.isBlankCode) := by
  induction ps with
  | nil => rfl
  | cons p ps ih =>
    have rest := ih fun q member => formed q (List.mem_cons_of_mem _ member)
    cases p with
    | code c =>
      rw [spell_cons, Piece.text, List.singleton_append, Text.trimStart, List.dropWhile_cons,
        List.dropWhile_cons]
      by_cases blank : Text.isBlank c = true
      · simpa [Piece.isBlankCode, blank, Text.trimStart] using rest
      · simp [Piece.isBlankCode, blank, Piece.text]
    | region kind body closed =>
      obtain ⟨c, tail, rfl, blank⟩ := (formed _ List.mem_cons_self).isBlank_head
      rw [spell_cons, Piece.text, List.cons_append, Text.trimStart, List.dropWhile_cons,
        List.dropWhile_cons]
      simp [Piece.isBlankCode, blank, Piece.text]

/-- Blanks at the end are pieces of code, if the pieces end by themselves. -/
theorem trimEnd_spell {ps : List Piece} (formed : ∀ p ∈ ps, p.WellFormed)
    (whole : ∀ p ∈ ps, p.isWhole = true) :
    (spell ps).trimEnd = spell (ps.rdropWhile Piece.isBlankCode) := by
  induction ps using List.reverseRecOn with
  | nil => rfl
  | append_singleton ps p ih =>
    have rest := ih (fun q member => formed q (List.mem_append_left _ member))
      (fun q member => whole q (List.mem_append_left _ member))
    have last : p ∈ ps ++ [p] := List.mem_append_right _ (List.mem_singleton_self p)
    change List.rdropWhile Text.isBlank _ = _ at rest ⊢
    rw [spell_append, spell_cons, spell_nil, List.append_nil]
    cases p with
    | code c =>
      by_cases blank : Text.isBlank c = true
      · rw [Piece.text, List.rdropWhile_concat_pos _ _ _ blank,
          List.rdropWhile_concat_pos _ _ _ (by exact blank), rest]
      · rw [Piece.text, List.rdropWhile_concat_neg _ _ _ blank,
          List.rdropWhile_concat_neg _ _ _ (by exact blank), spell_append]
        rfl
    | region kind body closed =>
      obtain ⟨c, ends, blank⟩ := (formed _ last).isBlank_getLast (whole _ last)
      obtain ⟨start, rfl⟩ := List.getLast?_eq_some_iff.mp ends
      rw [Piece.text, ← List.append_assoc, List.rdropWhile_concat_neg _ _ _ (by simp [blank]),
        List.rdropWhile_concat_neg _ _ _ (by simp [Piece.isBlankCode]), spell_append, spell_cons,
        spell_nil, List.append_nil, Piece.text, List.append_assoc]

/-- Trimming what pieces spell trims the pieces. -/
theorem trim_spell {ps : List Piece} (formed : ∀ p ∈ ps, p.WellFormed)
    (whole : ∀ p ∈ ps, p.isWhole = true) : (spell ps).trim = spell (trimPieces ps) := by
  rw [Text.trim, trimStart_spell formed, trimEnd_spell, trimPieces]
  · exact fun p member => formed p ((List.dropWhile_suffix _).subset member)
  · exact fun p member => whole p ((List.dropWhile_suffix _).subset member)

/-! ### A blank beside a text -/

namespace Text

private theorem BlockBody.concat {body : Text} (opened : BlockBody body false) {c : Char}
    (other : c ≠ '/') :
    BlockBody (body ++ [c]) false := by
  generalize result : false = closed at opened
  induction opened with
  | close => cases result
  | stop => exact .char (by simp) .stop
  | @char d body closed inside rest ih =>
    refine .char ?_ (ih result)
    cases body with
    | nil => simp [other]
    | cons e body => exact inside

private theorem LiteralBody.concat {quote : Char} {body : Text}
    (opened : LiteralBody quote body false) {c : Char} (inLine : c ≠ '\n') (plain : c ≠ '\\')
    (other : c ≠ quote) :
    LiteralBody quote (body ++ [c]) false := by
  generalize result : false = closed at opened
  induction opened with
  | close => cases result
  | stop => exact .char inLine plain other .stop
  | stopEscape => exact .escape inLine .stop
  | escape inLine' rest ih => exact .escape inLine' (ih result)
  | char inLine' plain' inside rest ih => exact .char inLine' plain' inside (ih result)

/-- Blanks are plain. -/
theorem isPlain_of_isBlank {c : Char} (blank : isBlank c = true) : isPlain c = true := by
  by_contra quoted
  have other : c = '"' ∨ c = '\'' ∨ c = '/' := by
    simp only [isPlain, Region.ofQuote?, Bool.and_eq_true, decide_eq_true_eq] at quoted
    grind
  rcases other with rfl | rfl | rfl <;> exact absurd blank (by decide)

end Text

namespace Piece

/-- What fits a region fits any region of its kind. -/
theorem Fits.of_kind {p : Piece} {kind : Region} {body : Text} {closed : Bool}
    (fits : p.Fits (.region kind body closed)) (body' : Text) (closed' : Bool) :
    p.Fits (.region kind body' closed') := by
  refine ⟨fun slash => ⟨nofun, nofun, ?_⟩, fun line => (nomatch fits.line line), fits.text⟩
  have := (fits.slash slash).2.2
  cases kind <;> simp_all [isComment]

/-- A piece that cannot stand before a blank takes the blank in. -/
theorem WellFormed.exists_region {p : Piece} (formed : p.WellFormed) {c : Char}
    (blank : Text.isBlank c = true) (meets : ¬p.Before [c]) :
    ∃ kind body closed, p = .region kind body closed ∧
      (Piece.region kind (body ++ [c]) closed).WellFormed := by
  have ne : ∀ d, Text.isBlank d = false → c ≠ d := by
    rintro d visible rfl
    exact absurd blank (by simp [visible])
  have slash : c ≠ '/' := ne _ (by decide)
  have star : c ≠ '*' := ne _ (by decide)
  cases formed with
  | code plain =>
    refine absurd ⟨fun _ => ?_, by simp [endsWithLine], by simp [endsWithText]⟩ meets
    simp [slash, star]
  | @line body inLine =>
    have other : c ≠ '\n' := by
      rintro rfl
      exact meets ⟨by simp, fun _ => .inr rfl, by simp [endsWithText]⟩
    have longer : '\n' ∉ body ++ [c] := by simp [inLine, other.symm]
    exact ⟨.comment, _, true, rfl, .line longer⟩
  | @block body closed grammar =>
    cases closed with
    | true =>
      refine absurd ⟨by simp, ?_, by simp [endsWithText]⟩ meets
      simp [endsWithLine, Text.startsWith]
    | false => exact ⟨.comment, _, false, rfl, .block (grammar.concat slash)⟩
  | @literal quote kind body closed opens grammar =>
    have noComment := (Region.ofQuote?_eq_some opens).2.2.2
    have other : c ≠ '\n' := by
      rintro rfl
      refine meets ⟨by simp, fun _ => .inr rfl, fun toEnd => ?_⟩
      cases kind <;> simp_all [endsWithText]
    cases closed with
    | true =>
      refine absurd ⟨by simp, fun line => ?_, fun toEnd => ?_⟩ meets
      · cases kind <;> simp_all [endsWithLine]
      · cases kind <;> simp_all [endsWithText]
    | false =>
      refine ⟨kind, _, false, rfl, .literal opens (grammar.concat other (ne _ (by decide)) ?_)⟩
      exact ne _ (Region.isBlank_of_ofQuote? opens)

end Piece

namespace Text

/-- A blank behind a text is code, or belongs to the comment or literal that the text ends in. -/
theorem pieces_concat_blank (t : Text) {c : Char} (blank : isBlank c = true) :
    (t ++ [c]).pieces = t.pieces ++ [.code c] ∨
      ∃ before kind body closed, t.pieces = before ++ [.region kind body closed] ∧
        (t ++ [c]).pieces = before ++ [.region kind (body ++ [c]) closed] := by
  have single : pieces [c] = [.code c] :=
    pieces_plain (s := [c]) (by simpa using isPlain_of_isBlank blank)
  by_cases meets : ∀ p ∈ t.pieces.getLast?, p.Before [c]
  · exact .inl (by rw [pieces_append meets, single])
  · simp only [not_forall] at meets
    obtain ⟨p, last, meets⟩ := meets
    obtain ⟨before, whole⟩ := List.getLast?_eq_some_iff.mp last
    have scanned := scanned_pieces t
    obtain ⟨kind, body, closed, rfl, formed⟩ :=
      (scanned.wellFormed p (List.mem_of_getLast? last)).exists_region blank meets
    refine .inr ⟨before, kind, body, closed, whole, ?_⟩
    rw [whole] at scanned
    have longer : Scanned (before ++ [.region kind (body ++ [c]) closed]) := by
      refine (scanned.part (List.prefix_append _ _).isInfix).append
        (.cons formed .nil (by simp)) ?_
      intro q last q' head
      obtain rfl : .region kind (body ++ [c]) closed = q' := by simpa using head
      exact ((List.isChain_append.mp scanned.fits).2.2 q last _ rfl).of_kind _ _
    have spelled : t ++ [c] = spell (before ++ [.region kind (body ++ [c]) closed]) := by
      conv_lhs => rw [← spell_pieces t, whole]
      simp [Piece.text]
    rw [spelled, pieces_spell longer]

/-- A blank before a text is read by itself. -/
theorem pieces_cons_blank (t : Text) {c : Char} (blank : isBlank c = true) :
    pieces (c :: t) = .code c :: t.pieces :=
  pieces_plain_append (s := [c]) (by simpa using isPlain_of_isBlank blank) t

/-- A blank behind a text makes no comment. -/
theorem commentFree_concat_blank {t : Text} {c : Char} (blank : isBlank c = true) :
    (t ++ [c]).CommentFree ↔ t.CommentFree := by
  unfold CommentFree
  rcases pieces_concat_blank t blank with read | ⟨before, kind, body, closed, read, read'⟩
  · rw [read]
    simp [or_imp, forall_and, Piece.isComment]
  · rw [read, read']
    cases kind <;> simp [or_imp, forall_and, Piece.isComment]

/-- Blanks around a text make no comment and end none. -/
theorem commentFree_trim {t : Text} : t.trim.CommentFree ↔ t.CommentFree := by
  apply trim_induction (motive := fun s => t.trim.CommentFree ↔ s.CommentFree)
  · intro s c blank kept
    rw [kept]
    simp [CommentFree, pieces_cons_blank s blank, Piece.isComment]
  · intro s c blank kept
    rw [kept, commentFree_concat_blank blank]
  · rfl

/-- The lines of a text without comments have none. -/
theorem CommentFree.of_mem_lines {t line : Text} (free : t.CommentFree) (member : line ∈ t.lines) :
    line.CommentFree := by
  have returned : ∀ line : Text, line.dropReturn.CommentFree ↔ line.CommentFree := by
    intro line
    rw [← commentFree_trim, trim_dropReturn, commentFree_trim]
  have parts : ∀ line ∈ t.splitOn '\n', CommentFree line := fun line => free.of_mem_splitOn
  have each := forall_mem_lines CommentFree (by simp [CommentFree]) returned t
  exact each.mpr parts line member

/-- The code characters of a class in a text. -/
def codeIn (keep : Char → Bool) (t : Text) : Text :=
  (codeOf t.pieces).filter keep

section Blind

variable {keep : Char → Bool} (blind : ∀ c, isBlank c = true → keep c = false)

include blind

/-- A blank behind a text adds no code of a class without blanks. -/
theorem codeIn_concat (t : Text) {c : Char} (blank : isBlank c = true) :
    codeIn keep (t ++ [c]) = codeIn keep t := by
  rcases pieces_concat_blank t blank with read | ⟨before, kind, body, closed, read, read'⟩
  · simp [codeIn, read, blind c blank]
  · simp [codeIn, read, read']

/-- Trimming loses no code character but blanks. -/
theorem codeIn_trim (t : Text) : codeIn keep t.trim = codeIn keep t := by
  apply trim_induction (motive := fun s => codeIn keep t.trim = codeIn keep s)
  · intro s c blank kept
    rw [kept]
    simp [codeIn, pieces_cons_blank s blank, blind c blank]
  · intro s c blank kept
    rw [kept, codeIn_concat blind s blank]
  · rfl

/-- A carriage return is no code of a class without blanks. -/
theorem codeIn_dropReturn (line : Text) : codeIn keep (dropReturn line) = codeIn keep line := by
  rw [← codeIn_trim blind, trim_dropReturn, codeIn_trim blind]

/-- The code of lines comes one line after the other. -/
theorem codeIn_unlines {ls : List Text} (free : ∀ line ∈ ls, CommentFree line) :
    codeIn keep (unlines ls) = ls.flatMap (codeIn keep) := by
  have feed : keep '\n' = false := blind _ (by decide)
  rw [codeIn, pieces_unlines free]
  clear free
  induction ls with
  | nil => rfl
  | cons line ls ih =>
    cases ls with
    | nil => simp [List.intercalate_singleton, codeIn]
    | cons next ls =>
      rw [List.map_cons, List.map_cons, List.intercalate_cons_cons, codeOf_append, codeOf_append,
        List.filter_append, List.filter_append, ← List.map_cons, ih]
      simp [feed, codeIn]

/-- The lines of a text without comments hold its code characters in order, blanks apart. -/
theorem flatMap_codeIn_lines {t : Text} (free : t.CommentFree) :
    t.lines.flatMap (codeIn keep) = t.codeIn keep := by
  rw [flatMap_lines (by simp [codeIn]) (fun line => codeIn_dropReturn blind line),
    ← codeIn_unlines blind fun line member => free.of_mem_splitOn member]
  exact congrArg _ (List.intercalate_splitOn '\n')

end Blind

end Text

end ScriptLoom
