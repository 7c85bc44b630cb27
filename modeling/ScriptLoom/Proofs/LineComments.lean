import ScriptLoom.Proofs.CommentRemoval
import ScriptLoom.Proofs.Lines

/-! # Comments of a text and comments of its lines

A line read alone has the pieces that the text has there as long as no comment goes over the ends
of the line (`Text.exists_pieces_of_line`). On such a line it makes no difference whether the
comments are taken out of the text or of the line alone
(`Text.getElem?_splitOn_withoutComments`).
-/

namespace ScriptLoom

/-- Where a text is cut, its pieces are cut between two of them or inside one. -/
theorem exists_of_spell_eq_append {ps : List Piece} {s t : Text} (spelled : spell ps = s ++ t) :
    (∃ before after, ps = before ++ after ∧ spell before = s ∧ spell after = t) ∨
      ∃ before p after x y, ps = before ++ p :: after ∧ p.text = x ++ y ∧ x ≠ [] ∧ y ≠ [] ∧
        s = spell before ++ x ∧ t = y ++ spell after := by
  induction ps generalizing s with
  | nil =>
    obtain ⟨rfl, rfl⟩ := List.append_eq_nil_iff.mp spelled.symm
    exact .inl ⟨[], [], rfl, rfl, rfl⟩
  | cons p ps ih =>
    rw [spell_cons] at spelled
    by_cases atStart : s = []
    · subst atStart
      exact .inl ⟨[], p :: ps, rfl, rfl, spelled⟩
    rcases List.append_eq_append_iff.mp spelled with ⟨rest, rfl, further⟩ | ⟨y, own, rfl⟩
    · rcases ih further with ⟨before, after, rfl, rfl, rfl⟩ |
        ⟨before, q, after, x, y, rfl, text, left, right, rfl, rfl⟩
      · exact .inl ⟨p :: before, after, rfl, rfl, rfl⟩
      · refine .inr ⟨p :: before, q, after, x, y, rfl, text, left, right, ?_, rfl⟩
        rw [spell_cons, List.append_assoc]
    · by_cases atEnd : y = []
      · subst atEnd
        rw [List.append_nil] at own
        refine .inl ⟨[p], ps, rfl, ?_, rfl⟩
        rw [spell_cons, spell_nil, List.append_nil, own]
      · exact .inr ⟨[], p, ps, s, y, rfl, own, atStart, atEnd, rfl, rfl⟩

namespace Text

/-! ### The lines of a text by their numbers -/

/-- A text has one line more than line feeds. -/
theorem length_splitOn (t : Text) : (t.splitOn '\n').length = t.count '\n' + 1 := by
  induction t using line_induction with
  | last line inLine =>
    rw [List.splitOn_eq_singleton inLine, List.count_eq_zero_of_not_mem inLine]
    rfl
  | more line t inLine ih =>
    rw [List.splitOn_append_cons_self_of_not_mem inLine, List.length_cons, ih, List.count_append,
      List.count_eq_zero_of_not_mem inLine, List.count_cons_self, Nat.zero_add]

private theorem getElem?_splitOn {before line after : Text} (inLine : '\n' ∉ line)
    (starts : before.LineStarts) (ends : after.LineEnds) :
    ((before ++ (line ++ after)).splitOn '\n')[before.count '\n']? = some line := by
  have first : ((line ++ after).splitOn '\n')[0]? = some line := by
    rcases ends with rfl | feed
    · rw [List.append_nil, List.splitOn_eq_singleton inLine]
      rfl
    · obtain ⟨rest, rfl⟩ := List.head?_eq_some_iff.mp feed
      rw [List.splitOn_append_cons_self_of_not_mem inLine]
      rfl
  rcases starts with rfl | last
  · exact first
  · obtain ⟨front, rfl⟩ := List.getLast?_eq_some_iff.mp last
    have count : (front ++ ['\n']).count '\n' = (front.splitOn '\n').length := by
      rw [length_splitOn, List.count_append, List.count_singleton_self]
    rw [count, List.append_assoc, List.singleton_append, List.splitOn_append_cons_self,
      List.getElem?_append_right (Nat.le_refl _), Nat.sub_self]
    exact first

/-- A line of a text is between two places where lines start and end. -/
theorem exists_of_getElem?_splitOn {t line : Text} {i : Nat}
    (listed : (t.splitOn '\n')[i]? = some line) :
    ∃ before after, t = before ++ (line ++ after) ∧ before.count '\n' = i ∧
      before.LineStarts ∧ after.LineEnds ∧ '\n' ∉ line := by
  have inLine := not_mem_of_mem_splitOn (List.mem_of_getElem? listed)
  induction t using line_induction generalizing i with
  | last own noFeed =>
    rw [List.splitOn_eq_singleton noFeed] at listed
    obtain ⟨rfl, rfl⟩ : i = 0 ∧ own = line := by
      cases i with
      | zero => exact ⟨rfl, Option.some.inj listed⟩
      | succ i => cases listed
    exact ⟨[], [], by simp, rfl, .inl rfl, .inl rfl, inLine⟩
  | more own t noFeed ih =>
    rw [List.splitOn_append_cons_self_of_not_mem noFeed] at listed
    cases i with
    | zero =>
      obtain rfl : own = line := Option.some.inj listed
      exact ⟨[], '\n' :: t, rfl, rfl, .inl rfl, .inr rfl, inLine⟩
    | succ i =>
      obtain ⟨before, after, rfl, count, starts, ends, -⟩ := ih listed
      refine ⟨own ++ '\n' :: before, after, by simp, ?_, .inr ?_, ends, inLine⟩
      · rw [List.count_append, List.count_eq_zero_of_not_mem noFeed, List.count_cons_self, count,
          Nat.zero_add]
      · rcases starts with rfl | last
        · exact List.getLast?_concat
        · rw [List.getLast?_append, List.getLast?_cons, last]
          rfl

/-- Every offset is on a line, be it past the end or inside of a character. -/
theorem exists_lineAt (t : Text) (offset : Nat) :
    ∃ before line after, t = before ++ (line ++ after) ∧
      (t.splitOn '\n')[t.lineNumberAt offset - 1]? = some line ∧
      t.lineNumberAt offset = lineAfter before ∧ before.LineStarts ∧ after.LineEnds ∧
      '\n' ∉ line := by
  have bound : t.lineNumberAt offset - 1 < (t.splitOn '\n').length := by
    have feeds := List.length_filter_le (· < offset) t.lineFeeds
    rw [length_lineFeeds] at feeds
    rw [lineNumberAt, length_splitOn]
    omega
  have listed := List.getElem?_eq_getElem bound
  obtain ⟨before, after, whole, count, starts, ends, inLine⟩ := exists_of_getElem?_splitOn listed
  refine ⟨before, _, after, whole, listed, ?_, starts, ends, inLine⟩
  have positive : 1 ≤ t.lineNumberAt offset := Nat.le_add_right _ _
  rw [lineAfter]
  omega

/-- Every line is a part between line feeds, or such a part without the carriage return at its
end. -/
theorem exists_part_of_getElem?_linesOfParts {parts : List Text} {i : Nat} {line : Text}
    (listed : (linesOfParts parts)[i]? = some line) :
    ∃ part, parts[i]? = some part ∧ (line = part ∨ part = line ++ ['\r']) := by
  fun_induction linesOfParts parts generalizing i with
  | case1 => cases listed
  | case2 => cases listed
  | case3 last _ => exact ⟨line, listed, .inl rfl⟩
  | case4 part rest _ ih =>
    cases i with
    | zero =>
      cases listed
      exact ⟨part, rfl, dropReturn_cases part⟩
    | succ i => exact ih listed

/-- What holds of no empty line and is blind to carriage returns at line ends is found on a line
of a text with the number of a part between line feeds. -/
theorem exists_numberedLine_iff {property : Text → Prop} (empty : ¬property [])
    (returned : ∀ line, property (dropReturn line) ↔ property line) {t : Text} {n : Nat} :
    (∃ line, (n, line) ∈ t.numberedLines ∧ property line) ↔
      ∃ i part, n = i + 1 ∧ (t.splitOn '\n')[i]? = some part ∧ property part := by
  have parts : ∀ (parts : List Text) (i : Nat),
      (∃ line, (linesOfParts parts)[i]? = some line ∧ property line) ↔
        ∃ part, parts[i]? = some part ∧ property part := by
    intro parts
    fun_induction linesOfParts parts with
    | case1 => exact fun i => Iff.rfl
    | case2 =>
      intro i
      cases i <;> simp [empty]
    | case3 => exact fun i => Iff.rfl
    | case4 line rest _ ih =>
      intro i
      cases i with
      | zero => simp [returned]
      | succ i => simpa using ih i
  constructor
  · rintro ⟨line, listed, holds⟩
    obtain ⟨⟨line, i⟩, member, same⟩ := List.mem_map.mp listed
    cases same
    obtain ⟨part, found⟩ := (parts _ i).mp
      ⟨line, List.mk_mem_zipIdx_iff_getElem?.mp member, holds⟩
    exact ⟨i, part, rfl, found⟩
  · rintro ⟨i, part, rfl, listed, holds⟩
    obtain ⟨line, found, holds'⟩ := (parts _ i).mpr ⟨part, listed, holds⟩
    exact ⟨line, List.mem_map.mpr ⟨(line, i), List.mk_mem_zipIdx_iff_getElem?.mpr found, rfl⟩,
      holds'⟩

/-! ### Comments on one line -/

/-- Whether the comments of a text that reach a line stay on it. -/
def CommentsWithin (t : Text) (number : Nat) : Prop :=
  ∀ span ∈ t.comments, t.lineNumberAt span.start ≤ number → number ≤ t.lineNumberAt span.stop →
    t.lineNumberAt span.start = t.lineNumberAt span.stop

/-- The line at the place where two texts meet is the one after the first. -/
theorem lineNumberAt_size (s t : Text) : lineNumberAt (s ++ t) (size s) = lineAfter s :=
  lineNumberAt_append (Nat.le_refl _) fun i _ => Nat.le_add_right _ i

private theorem CommentsWithin.not_mem {t body : Text} {before after : List Piece} {closed : Bool}
    {number : Nat} (within : t.CommentsWithin number)
    (split : t.pieces = before ++ .region .comment body closed :: after)
    (start : lineAfter (spell before) ≤ number)
    (stop : number ≤ lineAfter (spell before ++ body)) : '\n' ∉ body := by
  have whole : t = spell before ++ (body ++ spell after) := by
    rw [← spell_pieces t, split, spell_append, spell_cons]
    rfl
  have listed : (⟨size (spell before), size (spell before) + size body, .comment, closed⟩ : Span) ∈
      t.comments := by
    rw [comments, spans, split, spansFrom_append, Nat.zero_add, spansFrom, List.mem_filter]
    exact ⟨List.mem_append_right _ List.mem_cons_self, rfl⟩
  have first : t.lineNumberAt (size (spell before)) = lineAfter (spell before) := by
    rw [whole, lineNumberAt_size]
  have last : t.lineNumberAt (size (spell before) + size body) =
      lineAfter (spell before ++ body) := by
    rw [whole, ← List.append_assoc, ← size_append, lineNumberAt_size]
  have same := within _ listed
  dsimp only at same
  rw [first, last] at same
  have none := same start stop
  rw [lineAfter_append] at none
  exact List.count_eq_zero.mp (by omega)

/-- Inside a piece that reaches a line, a text is not cut beside a line feed. -/
theorem CommentsWithin.not_mem_text {t : Text} {before after : List Piece} {p : Piece}
    {number : Nat} (within : t.CommentsWithin number) (split : t.pieces = before ++ p :: after)
    {x y : Text} (text : p.text = x ++ y) (left : x ≠ []) (right : y ≠ [])
    (start : lineAfter (spell before) ≤ number)
    (stop : number ≤ lineAfter (spell before ++ (x ++ y))) : '\n' ∉ x ++ y := by
  have formed := (scanned_pieces t).wellFormed p (by rw [split]; simp)
  rw [← text] at stop ⊢
  rcases p with c | ⟨kind, body, closed⟩
  · have length := congrArg List.length text
    rw [List.length_append] at length
    have := List.length_pos_iff.mpr left
    have := List.length_pos_iff.mpr right
    have one : (Piece.code c).text.length = 1 := rfl
    omega
  · cases kind with
    | comment => exact within.not_mem split start stop
    | string => exact formed.not_mem_lineFeed rfl (by simp)
    | character => exact formed.not_mem_lineFeed rfl (by simp)

/-- A line without comments over its ends has pieces of its own. -/
theorem exists_pieces_of_line {before line after : Text} (inLine : '\n' ∉ line)
    (starts : before.LineStarts) (ends : after.LineEnds)
    (within : (before ++ (line ++ after)).CommentsWithin (lineAfter before)) :
    ∃ ps qs rs, pieces (before ++ (line ++ after)) = ps ++ (qs ++ rs) ∧ spell ps = before ∧
      spell qs = line ∧ spell rs = after := by
  rcases exists_of_spell_eq_append (spell_pieces (before ++ (line ++ after))) with
    ⟨ps, further, split, front, rest⟩ | ⟨ps, p, further, x, y, split, text, left, right, front, -⟩
  · rcases exists_of_spell_eq_append rest with
      ⟨qs, rs, rfl, own, behind⟩ | ⟨qs, p, rs, x, y, rfl, text, left, right, own, behind⟩
    · exact ⟨ps, qs, rs, split, front, own, behind⟩
    · -- A piece that goes on behind the line holds the line feed at its end.
      have feed : '\n' ∈ x ++ y := by
        obtain ⟨c, y, rfl⟩ := List.exists_cons_of_ne_nil right
        rcases ends with rfl | head
        · cases behind
        · rw [behind] at head
          obtain rfl : c = '\n' := by simpa using head
          simp
      have reached : lineAfter (spell (ps ++ qs)) = lineAfter before := by
        have none : '\n' ∉ spell qs := fun member =>
          inLine (own ▸ List.mem_append_left x member)
        rw [spell_append, front, lineAfter_append, List.count_eq_zero_of_not_mem none,
          Nat.add_zero]
      rw [← List.append_assoc ps] at split
      refine absurd feed (within.not_mem_text split text left right (Nat.le_of_eq reached) ?_)
      rw [lineAfter_append, reached]
      exact Nat.le_add_right _ _
  · -- A piece that begins before the line holds the line feed before it.
    have feed : '\n' ∈ x ++ y := by
      rcases starts with rfl | last
      · exact absurd (List.append_eq_nil_iff.mp front.symm).2 left
      · rw [front, List.getLast?_append_of_ne_nil _ left] at last
        exact List.mem_append_left y (List.mem_of_getLast? last)
    refine absurd feed (within.not_mem_text split text left right ?_ ?_)
    · rw [front, lineAfter_append]
      exact Nat.le_add_right _ _
    · rw [← List.append_assoc, ← front, lineAfter_append]
      exact Nat.le_add_right _ _

/-! ### Comments taken out -/

/-- Without comments pieces have the line feeds that they had. -/
theorem count_flatMap_withoutComment (ps : List Piece) :
    (ps.flatMap Piece.withoutComment).count '\n' = (spell ps).count '\n' := by
  induction ps with
  | nil => rfl
  | cons p ps ih =>
    rw [List.flatMap_cons, List.count_append, ih, count_withoutComment, spell_cons,
      List.count_append]

/-- Without comments a text has the line feeds that it had. -/
theorem count_withoutComments (t : Text) : t.withoutComments.count '\n' = t.count '\n' := by
  rw [withoutComments, count_flatMap_withoutComment, spell_pieces]

/-- Without comments a text has the lines that it had. -/
theorem length_splitOn_withoutComments (t : Text) :
    (t.withoutComments.splitOn '\n').length = (t.splitOn '\n').length := by
  rw [length_splitOn, length_splitOn, count_withoutComments]

/-- Without comments, pieces end where a line starts if they did so with them. -/
theorem lineStarts_flatMap_withoutComment {ps : List Piece} (formed : ∀ p ∈ ps, p.WellFormed)
    (starts : (spell ps).LineStarts) : LineStarts (ps.flatMap Piece.withoutComment) := by
  rcases List.eq_nil_or_concat ps with rfl | ⟨front, p, rfl⟩
  · exact .inl rfl
  · have nonempty := (formed p (by simp)).text_ne_nil
    rw [List.concat_eq_append, spell_append, spell_cons, spell_nil, List.append_nil] at starts
    rcases starts with empty | last
    · exact absurd (List.append_eq_nil_iff.mp empty).2 nonempty
    · rw [List.getLast?_append_of_ne_nil _ nonempty] at last
      obtain ⟨text, own⟩ := List.getLast?_eq_some_iff.mp last
      have ending : p.withoutComment.getLast? = some '\n' := by
        rw [withoutComment_eq, own, List.filter_append]
        split
        · exact List.getLast?_concat
        · exact List.getLast?_concat
      refine .inr ?_
      rw [List.concat_eq_append, List.flatMap_append, List.flatMap_singleton, List.getLast?_append,
        ending]
      rfl

private theorem lineEnds_flatMap_withoutComment {ps : List Piece} (formed : ∀ p ∈ ps, p.WellFormed)
    (ends : (spell ps).LineEnds) : LineEnds (ps.flatMap Piece.withoutComment) := by
  cases ps with
  | nil => exact .inl rfl
  | cons p ps =>
    have nonempty := (formed p List.mem_cons_self).text_ne_nil
    rw [spell_cons] at ends
    rcases ends with empty | head
    · exact absurd (List.append_eq_nil_iff.mp empty).1 nonempty
    · rw [List.head?_append_of_ne_nil _ nonempty] at head
      obtain ⟨text, own⟩ := List.head?_eq_some_iff.mp head
      have beginning : p.withoutComment.head? = some '\n' := by
        rw [withoutComment_eq, own]
        split <;> rfl
      refine .inr ?_
      rw [List.flatMap_cons, List.head?_append, beginning]
      rfl

/-- On a line that no comment goes over the ends of, the comments of the text are those of the
line. -/
theorem getElem?_splitOn_withoutComments {t line : Text} {i : Nat}
    (listed : (t.splitOn '\n')[i]? = some line) (within : t.CommentsWithin (i + 1)) :
    (t.withoutComments.splitOn '\n')[i]? = some line.withoutComments := by
  obtain ⟨before, after, rfl, count, starts, ends, inLine⟩ := exists_of_getElem?_splitOn listed
  have number : lineAfter before = i + 1 := by rw [lineAfter, count, Nat.add_comm]
  rw [← number] at within
  obtain ⟨ps, qs, rs, split, rfl, rfl, rfl⟩ := exists_pieces_of_line inLine starts ends within
  have formed := (scanned_pieces (spell ps ++ (spell qs ++ spell rs))).wellFormed
  rw [split] at formed
  have own : pieces (spell qs) = qs :=
    pieces_spell_part ⟨ps, rs, by rw [split, List.append_assoc]⟩
  have parts : withoutComments (spell ps ++ (spell qs ++ spell rs)) =
      ps.flatMap Piece.withoutComment ++
        (withoutComments (spell qs) ++ rs.flatMap Piece.withoutComment) := by
    rw [withoutComments, split, List.flatMap_append, List.flatMap_append, withoutComments, own]
  rw [parts, ← count, ← count_flatMap_withoutComment]
  apply getElem?_splitOn
  · rw [withoutComments, own, ← List.count_eq_zero, count_flatMap_withoutComment]
    exact List.count_eq_zero_of_not_mem inLine
  · exact lineStarts_flatMap_withoutComment
      (fun p member => formed p (List.mem_append_left _ member)) starts
  · exact lineEnds_flatMap_withoutComment
      (fun p member => formed p (List.mem_append_right _ (List.mem_append_right _ member))) ends

/-- A carriage return at the end of a line makes no difference to its code. -/
theorem trim_withoutComments_dropReturn (line : Text) :
    (dropReturn line).withoutComments.trim = line.withoutComments.trim := by
  rcases dropReturn_cases line with same | whole
  · rw [same]
  · have blank : isBlank '\r' = true := by decide
    conv_rhs => rw [whole]
    generalize dropReturn line = t
    rcases pieces_concat_blank t blank with apart | ⟨before, kind, body, closed, own, joined⟩
    · rw [withoutComments, withoutComments, apart, List.flatMap_append, List.flatMap_singleton]
      exact (trim_concat_blank _ blank).symm
    · rw [withoutComments, withoutComments, own, joined, List.flatMap_append, List.flatMap_append,
        List.flatMap_singleton, List.flatMap_singleton]
      cases kind with
      | comment => simp [Piece.withoutComment]
      | string =>
        simp only [Piece.withoutComment, Piece.text]
        rw [← List.append_assoc, trim_concat_blank _ blank]
      | character =>
        simp only [Piece.withoutComment, Piece.text]
        rw [← List.append_assoc, trim_concat_blank _ blank]

end Text

end ScriptLoom
