import ScriptLoom.Proofs.FormatCall

/-! # Format calls among the marks of a text

Gaps are free inside a format call, so whether a text has one shows on its marks, the pieces
without gaps: a closed string literal, a percent sign and an opening parenthesis in a row
(`Text.expandFirst_eq_ok_none_iff`).
-/

namespace ScriptLoom

/-- Whether a piece is a character that may stand around the percent sign of a format call. -/
def Piece.isGapCode : Piece → Bool
  | .code c => Text.isGap c
  | .region _ _ _ => false

/-- Pieces without the gaps between them. -/
def marksOf (ps : List Piece) : List Piece :=
  ps.filter (!·.isGapCode)

/-- The pieces of a text without the gaps between them. -/
def Text.marks (t : Text) : List Piece :=
  marksOf t.pieces

/-- Whether a closed string literal, a percent sign and an opening parenthesis follow each other
among marks. -/
def HasCall (marks : List Piece) : Prop :=
  ∃ body, [.region .string body true, .code '%', .code '('] <:+: marks

section Marks

variable {ps qs : List Piece}

/-- The marks of two lists of pieces come one after the other. -/
theorem marksOf_append : marksOf (ps ++ qs) = marksOf ps ++ marksOf qs :=
  List.filter_append ..

/-- A gap is no mark. -/
theorem marksOf_cons_of_isGapCode {p : Piece} (gap : p.isGapCode = true) :
    marksOf (p :: ps) = marksOf ps := by
  simp [marksOf, gap]

/-- A piece that is no gap is a mark. -/
theorem marksOf_cons {p : Piece} (visible : p.isGapCode = false) :
    marksOf (p :: ps) = p :: marksOf ps := by
  simp [marksOf, visible]

/-- The marks of code are its characters that are no gaps. -/
theorem marksOf_map_code (t : Text) :
    marksOf (t.map .code) = (t.filter (!Text.isGap ·)).map .code :=
  List.filter_map

private theorem marksOf_gap {gap : Text} (isGap : ∀ c ∈ gap, Text.isGap c = true) :
    marksOf (gap.map .code) = [] := by
  rw [marksOf, List.filter_eq_nil_iff]
  intro p member
  obtain ⟨c, listed, rfl⟩ := List.mem_map.mp member
  simp [Piece.isGapCode, isGap c listed]

/-- The gaps around the percent sign of a call leave the two signs and what follows them. -/
theorem marksOf_of_gaps {gap gap' : Text} (isGap : ∀ c ∈ gap, Text.isGap c = true)
    (isGap' : ∀ c ∈ gap', Text.isGap c = true) (inside : List Piece) :
    marksOf (gap.map .code ++ .code '%' :: (gap'.map .code ++ .code '(' :: inside)) =
      .code '%' :: .code '(' :: marksOf inside := by
  rw [marksOf_append, marksOf_gap isGap, marksOf_cons (by decide), marksOf_append,
    marksOf_gap isGap', marksOf_cons (by decide)]
  rfl

/-- A call starts with the first mark, or is one of the marks behind it. -/
theorem hasCall_cons {p : Piece} :
    HasCall (p :: ps) ↔
      ((∃ body, p = .region .string body true) ∧ [.code '%', .code '('] <+: ps) ∨ HasCall ps := by
  unfold HasCall
  simp only [List.infix_cons_iff, List.cons_prefix_cons, exists_or]
  constructor
  · rintro (⟨body, rfl, opened⟩ | later)
    · exact .inl ⟨⟨body, rfl⟩, opened⟩
    · exact .inr later
  · rintro (⟨⟨body, rfl⟩, opened⟩ | later)
    · exact .inl ⟨body, rfl, opened⟩
    · exact .inr later

/-- Without marks there is no call. -/
theorem not_hasCall_nil : ¬HasCall [] := by
  rintro ⟨body, here⟩
  simp at here

/-- Code before marks makes no call. -/
theorem hasCall_code_append {code : Text} : HasCall (code.map .code ++ ps) ↔ HasCall ps := by
  induction code with
  | nil => rfl
  | cons c code ih =>
    rw [List.map_cons, List.cons_append, hasCall_cons, ih]
    simp

/-- Whether marks begin with neither sign that a call goes on with after its literal. -/
def StartsApart (marks : List Piece) : Prop :=
  ∀ c ∈ ['%', '('], marks.head? ≠ some (.code c)

instance (marks : List Piece) : Decidable (StartsApart marks) :=
  inferInstanceAs (Decidable (∀ c ∈ ['%', '('], marks.head? ≠ some (.code c)))

/-- The two signs that follow a literal lie on one side of a place that they do not continue
over. -/
theorem signs_prefix_append (apart : StartsApart qs) :
    [.code '%', .code '('] <+: ps ++ qs ↔ [.code '%', .code '('] <+: ps := by
  constructor
  · intro signs
    match ps with
    | [] =>
      obtain ⟨rest, rfl⟩ := signs
      exact absurd rfl (apart '%' (by decide))
    | [q] =>
      obtain ⟨-, second⟩ := List.cons_prefix_cons.mp signs
      obtain ⟨rest, rfl⟩ := second
      exact absurd rfl (apart '(' (by decide))
    | q :: q' :: ps =>
      simpa [List.cons_prefix_cons] using signs
  · intro signs
    exact signs.trans (List.prefix_append _ _)

/-- A call lies on one side of a place that its signs do not continue over. -/
theorem hasCall_append (apart : StartsApart qs) :
    HasCall (ps ++ qs) ↔ HasCall ps ∨ HasCall qs := by
  induction ps with
  | nil => simp [not_hasCall_nil]
  | cons p ps ih =>
    rw [List.cons_append, hasCall_cons, hasCall_cons, ih, signs_prefix_append apart, or_assoc]

/-- The end of the marks stands apart. -/
theorem startsApart_nil : StartsApart [] :=
  nofun

/-- A character other than the two signs of a call stands apart. -/
theorem startsApart_code {c : Char} (notPercent : c ≠ '%') (notOpening : c ≠ '(') :
    StartsApart (.code c :: ps) := by
  simp [StartsApart, notPercent, notOpening]

/-- A comment or a literal stands apart. -/
theorem startsApart_region {kind : Region} {body : Text} {closed : Bool} :
    StartsApart (.region kind body closed :: ps) := by
  simp [StartsApart]

/-- The front of marks that stand apart does so too. -/
theorem StartsApart.of_append (apart : StartsApart (ps ++ qs)) : StartsApart ps := by
  cases ps with
  | nil => exact startsApart_nil
  | cons p ps => exact apart

/-- Marks that stand apart do so before others that do. -/
theorem StartsApart.append (first : StartsApart ps) (second : StartsApart qs) :
    StartsApart (ps ++ qs) := by
  cases ps with
  | nil => exact second
  | cons p ps => exact first

/-- Marks that are put together from some that stand apart stand apart. -/
theorem startsApart_flatMap {α : Type} {marks : α → List Piece} {items : List α}
    (apart : ∀ item ∈ items, StartsApart (marks item)) : StartsApart (items.flatMap marks) := by
  induction items with
  | nil => exact startsApart_nil
  | cons item items ih =>
    rw [List.flatMap_cons]
    exact (apart item List.mem_cons_self).append
      (ih fun other later => apart other (List.mem_cons_of_mem _ later))

/-- Marks that are put together from some that stand apart have a call only within one of them. -/
theorem hasCall_flatMap {α : Type} {marks : α → List Piece} {items : List α}
    (apart : ∀ item ∈ items, StartsApart (marks item)) :
    HasCall (items.flatMap marks) ↔ ∃ item ∈ items, HasCall (marks item) := by
  induction items with
  | nil => simp [not_hasCall_nil]
  | cons item items ih =>
    have rest : ∀ other ∈ items, StartsApart (marks other) := fun other later =>
      apart other (List.mem_cons_of_mem _ later)
    rw [List.flatMap_cons, hasCall_append (startsApart_flatMap rest), ih rest]
    simp

private theorem startsApart_marksOf_singleton {p : Piece} (apart : StartsApart [p]) :
    StartsApart (marksOf [p]) := by
  cases gap : p.isGapCode with
  | true =>
    rw [marksOf_cons_of_isGapCode gap]
    exact startsApart_nil
  | false =>
    rw [marksOf_cons gap]
    exact apart

/-- A last piece that is neither sign of a call belongs to none. -/
theorem hasCall_marksOf_concat {p : Piece} (apart : StartsApart [p]) :
    HasCall (marksOf (ps ++ [p])) ↔ HasCall (marksOf ps) := by
  have short : ¬HasCall (marksOf [p]) := by
    rintro ⟨body, part⟩
    have length := part.length_le.trans (List.length_filter_le _ _)
    simp at length
  rw [marksOf_append, hasCall_append (startsApart_marksOf_singleton apart)]
  exact or_iff_left short

end Marks

/-! ### The search for a call -/

namespace FormatCall

private theorem exists_of_marksOf_cons {ps marks : List Piece} {p : Piece}
    (visible : marksOf ps = p :: marks) :
    ∃ rest, (takeCode Text.isGap ps).2 = p :: rest ∧ marksOf rest = marks := by
  fun_induction takeCode Text.isGap ps with
  | case1 c ps gap taken ih =>
    have hidden : (Piece.code c).isGapCode = true := gap
    rw [marksOf_cons_of_isGapCode hidden] at visible
    exact ih visible
  | case2 c ps noGap =>
    rw [marksOf_cons (by simpa [Piece.isGapCode] using noGap)] at visible
    cases visible
    exact ⟨ps, rfl, rfl⟩
  | case3 ps noCode =>
    rcases ps with _ | ⟨c | ⟨kind, body, closed⟩, ps⟩
    · cases visible
    · exact absurd rfl (noCode c ps)
    · rw [marksOf_cons rfl] at visible
      cases visible
      exact ⟨ps, rfl, rfl⟩

/-- Where the two signs of a call follow, its arguments are found. -/
theorem exists_argumentsAfter? {ps : List Piece}
    (opened : [.code '%', .code '('] <+: marksOf ps) :
    ∃ found, argumentsAfter? ps = some found := by
  obtain ⟨marks, visible⟩ := opened
  obtain ⟨rest, sign, behind⟩ := exists_of_marksOf_cons visible.symm
  obtain ⟨inside, parenthesis, -⟩ := exists_of_marksOf_cons behind
  rcases first : takeCode Text.isGap ps with ⟨gap, after⟩
  rcases second : takeCode Text.isGap rest with ⟨gap', after'⟩
  rw [first] at sign
  rw [second] at parenthesis
  obtain rfl : after = .code '%' :: rest := sign
  obtain rfl : after' = .code '(' :: inside := parenthesis
  exact ⟨(gap ++ ['%'] ++ gap', inside), by simp [argumentsAfter?, percentAfter?, first, second]⟩

/-- No call is found exactly if the marks have none. -/
theorem find?_eq_none_iff {ps : List Piece} : find? ps = none ↔ ¬HasCall (marksOf ps) := by
  constructor
  · rintro none call
    fun_induction find? ps with
    | case1 => exact not_hasCall_nil call
    | case2 => cases none
    | case3 body ps unopened ih =>
      rw [marksOf_cons rfl, hasCall_cons] at call
      rcases call with ⟨-, opened⟩ | later
      · obtain ⟨found, here⟩ := exists_argumentsAfter? opened
        rw [unopened] at here
        cases here
      · exact ih (Option.map_eq_none_iff.mp none) later
    | case4 p ps noLiteral ih =>
      apply ih (Option.map_eq_none_iff.mp none)
      cases gap : p.isGapCode with
      | true => rwa [marksOf_cons_of_isGapCode gap] at call
      | false =>
        rw [marksOf_cons gap, hasCall_cons] at call
        rcases call with ⟨⟨body, rfl⟩, -⟩ | later
        · exact absurd rfl (noLiteral body)
        · exact later
  · intro noCall
    by_contra found
    obtain ⟨call, found⟩ := Option.ne_none_iff_exists'.mp found
    obtain ⟨before, body, gap, gap', rfl, -, -, isGap, isGap'⟩ := exists_of_find? found
    apply noCall
    refine ⟨body, marksOf before, marksOf call.rest, ?_⟩
    rw [marksOf_append, marksOf_cons rfl, marksOf_of_gaps isGap isGap']
    simp

end FormatCall

/-- A text is expanded to the end exactly if its marks have no call. -/
theorem Text.expandFirst_eq_ok_none_iff {t : Text} :
    t.expandFirst = .ok none ↔ ¬HasCall t.marks := by
  rw [Text.marks, ← FormatCall.find?_eq_none_iff]
  unfold Text.expandFirst
  cases FormatCall.find? t.pieces with
  | none => simp
  | some call =>
    dsimp only
    cases splitAtClose? '(' ')' 0 call.rest <;> simp

/-! ### Marks of texts -/

namespace Text

/-- The empty text has no marks. -/
@[simp]
theorem marks_nil : marks [] = [] := by
  rw [marks, pieces]
  rfl

/-- Plain characters before a text are marks of their own. -/
theorem marks_plain_append {s : Text} (plain : ∀ c ∈ s, isPlain c = true) (t : Text) :
    (s ++ t).marks = (s.filter (!isGap ·)).map .code ++ t.marks := by
  rw [marks, pieces_plain_append plain, marksOf_append, marksOf_map_code]
  rfl

/-- Gaps before a text are no marks. -/
theorem marks_gap_append {gap : Text} (isGap : ∀ c ∈ gap, Text.isGap c = true) (t : Text) :
    (gap ++ t).marks = t.marks := by
  rw [marks_plain_append fun c member => isPlain_of_isBlank (isBlank_of_isGap (isGap c member)),
    List.filter_eq_nil_iff.mpr fun c member => by simp [isGap c member]]
  rfl

/-- The marks of lines come one line after the other. -/
theorem marks_unlines {ls : List Text} (free : ∀ line ∈ ls, CommentFree line) :
    (unlines ls).marks = ls.flatMap marks := by
  rw [marks, pieces_unlines free]
  induction ls with
  | nil => rfl
  | cons line ls ih =>
    cases ls with
    | nil => simp [marks, List.intercalate_singleton]
    | cons next ls =>
      have rest := ih fun line later => free line (List.mem_cons_of_mem _ later)
      rw [List.map_cons] at rest ⊢
      rw [List.map_cons, List.intercalate_cons_cons, marksOf_append, marksOf_append, rest,
        marksOf_cons_of_isGapCode (by decide)]
      simp [marks, marksOf]

/-- The marks of a text without comments are those of its lines. -/
theorem marks_eq_flatMap_splitOn {t : Text} (free : t.CommentFree) :
    t.marks = (t.splitOn '\n').flatMap marks := by
  have whole : unlines (t.splitOn '\n') = t := List.intercalate_splitOn '\n'
  rw [← marks_unlines fun line => free.of_mem_splitOn, whole]

private theorem startsApart_blank {c : Char} (blank : isBlank c = true) {ps : List Piece} :
    StartsApart (.code c :: ps) := by
  apply startsApart_code
  · rintro rfl
    exact absurd blank (by decide)
  · rintro rfl
    exact absurd blank (by decide)

private theorem hasCall_concat_blank (t : Text) {c : Char} (blank : isBlank c = true) :
    HasCall (t ++ [c]).marks ↔ HasCall t.marks := by
  rcases pieces_concat_blank t blank with read | ⟨before, kind, body, closed, read, read'⟩
  · rw [marks, read]
    exact hasCall_marksOf_concat (startsApart_blank blank)
  · rw [marks, marks, read, read', hasCall_marksOf_concat startsApart_region,
      hasCall_marksOf_concat startsApart_region]

/-- Blanks around a text belong to none of its calls. -/
theorem hasCall_trim (t : Text) : HasCall t.trim.marks ↔ HasCall t.marks := by
  apply trim_induction (motive := fun s => HasCall t.trim.marks ↔ HasCall s.marks)
  · intro s c blank kept
    have plain : ∀ d ∈ [c], isPlain d = true := by simpa using isPlain_of_isBlank blank
    have read := marks_plain_append plain s
    rw [kept, ← List.singleton_append, read, hasCall_code_append]
  · intro s c blank kept
    rw [kept, hasCall_concat_blank s blank]
  · rfl

/-- Whether a text stands apart is seen without the blanks around it. -/
theorem startsApart_of_trim {t : Text} (apart : StartsApart t.trim.marks) :
    StartsApart t.marks := by
  apply trim_induction (motive := fun s => StartsApart s.marks) _ _ apart
  · intro s c blank apart
    rw [marks, pieces_cons_blank s blank, ← List.singleton_append, marksOf_append]
    exact (startsApart_marksOf_singleton (startsApart_blank blank)).append apart
  · intro s c blank apart
    rcases pieces_concat_blank s blank with read | ⟨before, kind, body, closed, read, read'⟩
    · rw [marks, read, marksOf_append]
      exact apart.append (startsApart_marksOf_singleton (startsApart_blank blank))
    · rw [marks, read, marksOf_append] at apart
      rw [marks, read', marksOf_append]
      exact apart.of_append.append (startsApart_marksOf_singleton startsApart_region)

end Text

/-! ### Indentation -/

/-- A line feed with tabs behind it; other characters stay. -/
def Text.deepenChar (tabs : Text) (c : Char) : Text :=
  if c = '\n' then '\n' :: tabs else [c]

/-- A text with tabs behind every line feed. -/
def Text.deepen (tabs t : Text) : Text :=
  t.flatMap (Text.deepenChar tabs)

/-- A comment with tabs behind its line feeds; other pieces stay. -/
def Piece.deepenComment (tabs : Text) : Piece → Piece
  | .region .comment body closed => .region .comment (Text.deepen tabs body) closed
  | p => p

/-- A piece with tabs behind its line feeds. -/
def Piece.deepen (tabs : Text) : Piece → List Piece
  | .code c => (Text.deepenChar tabs c).map .code
  | p => [p.deepenComment tabs]

namespace Text

variable {tabs : Text}

private theorem deepen_of_not_mem {t : Text} (inLine : '\n' ∉ t) : deepen tabs t = t := by
  induction t with
  | nil => rfl
  | cons c t ih =>
    have other : c ≠ '\n' := fun same => inLine (same ▸ List.mem_cons_self)
    have rest := ih fun later => inLine (List.mem_cons_of_mem _ later)
    rw [deepen] at rest ⊢
    rw [List.flatMap_cons, rest, deepenChar, if_neg other]
    rfl

private theorem deepen_append (s t : Text) : deepen tabs
    (s ++ t) = deepen tabs s ++ deepen tabs t :=
  List.flatMap_append

private theorem deepen_cons_lineFeed (t : Text) :
    deepen tabs ('\n' :: t) = '\n' :: (tabs ++ deepen tabs t) :=
  List.flatMap_cons

private theorem head?_deepen (t : Text) : (deepen tabs t).head? = t.head? := by
  cases t with
  | nil => rfl
  | cons c t =>
    rw [deepen, List.flatMap_cons, deepenChar]
    split
    · next feed => rw [feed]; rfl
    · rfl

private theorem BlockBody.append {front body : Text} {closed : Bool} (noStar : '*' ∉ front)
    (grammar : BlockBody body closed) : BlockBody (front ++ body) closed := by
  induction front with
  | nil => exact grammar
  | cons c front ih =>
    refine .char ?_ (ih fun later => noStar (List.mem_cons_of_mem _ later))
    rintro ⟨rfl, -⟩
    exact noStar List.mem_cons_self

private theorem BlockBody.deepen {body : Text} {closed : Bool} (grammar : BlockBody body closed)
    (noStar : '*' ∉ tabs) : BlockBody (deepen tabs body) closed := by
  induction grammar with
  | close => exact .close
  | stop => exact .stop
  | @char c body closed inside rest ih =>
    rw [Text.deepen, List.flatMap_cons, deepenChar]
    split
    · have front : '*' ∉ '\n' :: tabs := by simpa using noStar
      exact ih.append front
    · refine .char ?_ ih
      change ¬(c = '*' ∧ (Text.deepen tabs body).head? = some '/')
      rw [head?_deepen]
      exact inside

end Text

namespace Piece

variable {tabs : Text}

private theorem head?_deepen (p : Piece) : (p.deepen tabs).head? = some (p.deepenComment tabs) := by
  rcases p with c | ⟨kind, body, closed⟩
  · simp only [deepen, Text.deepenChar]
    split
    · next feed => rw [feed]; rfl
    · rfl
  · rfl

private theorem spell_deepen {p : Piece} (formed : p.WellFormed) :
    spell (p.deepen tabs) = Text.deepen tabs p.text := by
  rcases p with c | ⟨kind, body, closed⟩
  · rw [deepen, spell_map_code, Text.deepen, text, List.flatMap_singleton]
  · cases kind with
    | comment => simp [deepen, deepenComment, text]
    | string =>
      rw [Text.deepen_of_not_mem (formed.not_mem_lineFeed rfl (by simp))]
      simp [deepen, deepenComment, text]
    | character =>
      rw [Text.deepen_of_not_mem (formed.not_mem_lineFeed rfl (by simp))]
      simp [deepen, deepenComment, text]

private theorem deepenComment_of_not_comment {p : Piece} (noComment : p.isComment = false) :
    p.deepenComment tabs = p := by
  rcases p with c | ⟨kind, body, closed⟩
  · rfl
  · cases kind with
    | comment => cases noComment
    | string => rfl
    | character => rfl

private theorem deepenComment_literal {quote : Char} {kind : Region}
    (opens : Region.ofQuote? quote = some kind) (body : Text) (closed : Bool) :
    (Piece.region kind body closed).deepenComment tabs = .region kind body closed :=
  deepenComment_of_not_comment (isComment_literal (Region.ofQuote?_eq_some opens).2.2.2 _ _)

private theorem WellFormed.deepenComment {p : Piece} (formed : p.WellFormed) (noStar : '*' ∉ tabs) :
    (p.deepenComment tabs).WellFormed := by
  cases formed with
  | code plain => exact .code plain
  | @line body inLine =>
    have same : Text.deepen tabs ('/' :: '/' :: body) = '/' :: '/' :: body :=
      Text.deepen_of_not_mem (by simpa using inLine)
    rw [Piece.deepenComment, same]
    exact .line inLine
  | block grammar => exact .block (grammar.deepen noStar)
  | literal opens grammar =>
    rw [deepenComment_literal opens]
    exact .literal opens grammar

private theorem WellFormed.endsWithLine_deepenComment {p : Piece} (formed : p.WellFormed) :
    (p.deepenComment tabs).endsWithLine = p.endsWithLine := by
  cases formed with
  | code => rfl
  | line => rfl
  | block => rfl
  | literal opens => rw [deepenComment_literal opens]

private theorem endsWithText_deepenComment (p : Piece) :
    (p.deepenComment tabs).endsWithText = p.endsWithText := by
  rcases p with c | ⟨kind, body, closed⟩
  · rfl
  · cases kind <;> rfl

private theorem deepenComment_eq_code {p : Piece} {c : Char} :
    p.deepenComment tabs = .code c ↔ p = .code c := by
  rcases p with d | ⟨kind, body, closed⟩
  · rfl
  · cases kind <;> simp [deepenComment]

private theorem isComment_deepenComment (p : Piece) :
    (p.deepenComment tabs).isComment = p.isComment := by
  rcases p with c | ⟨kind, body, closed⟩
  · rfl
  · cases kind <;> rfl

private theorem isGapCode_deepenComment (tabs : Text) (p : Piece) :
    (p.deepenComment tabs).isGapCode = p.isGapCode := by
  rcases p with c | ⟨kind, body, closed⟩
  · rfl
  · cases kind <;> rfl

private theorem deepen_of_ne {p : Piece} (other : p ≠ .code '\n') :
    p.deepen tabs = [p.deepenComment tabs] := by
  rcases p with c | region
  · have inLine : c ≠ '\n' := fun same => other (same ▸ rfl)
    simp [deepen, deepenComment, Text.deepenChar, inLine]
  · rfl

private theorem Fits.deepenComment {p q : Piece} (formed : p.WellFormed) (fits : p.Fits q) :
    (p.deepenComment tabs).Fits (q.deepenComment tabs) := by
  refine ⟨?_, ?_, ?_⟩
  · intro slash
    simpa only [ne_eq, deepenComment_eq_code, isComment_deepenComment] using
      fits.slash (deepenComment_eq_code.mp slash)
  · intro ends
    rw [formed.endsWithLine_deepenComment] at ends
    exact deepenComment_eq_code.mpr (fits.line ends)
  · rw [endsWithText_deepenComment]
    exact fits.text

end Piece

private theorem Scanned.deepen {tabs : Text} (isTab : ∀ c ∈ tabs, c = '\t') {ps : List Piece}
    (scanned : Scanned ps) : Scanned (ps.flatMap (Piece.deepen tabs)) := by
  have noStar : '*' ∉ tabs := fun member => absurd (isTab _ member) (by decide)
  induction ps with
  | nil => exact .nil
  | cons p ps ih =>
    have formed := scanned.wellFormed p List.mem_cons_self
    have rest := ih scanned.tail
    rw [List.flatMap_cons]
    by_cases feed : p = .code '\n'
    · subst feed
      have plain : ∀ c ∈ '\n' :: tabs, Text.isPlain c = true := by
        intro c member
        rcases List.mem_cons.mp member with rfl | later
        · decide
        · rw [isTab c later]
          decide
      refine (Scanned.map_code plain).append_of_isBounded ?_ rest
      intro q last
      obtain ⟨c, member, rfl⟩ := List.mem_map.mp (List.mem_of_getLast? last)
      rcases List.mem_cons.mp member with rfl | later
      · decide
      · rw [isTab c later]
        decide
    · rw [Piece.deepen_of_ne feed, List.singleton_append]
      refine Scanned.cons (formed.deepenComment noStar) rest ?_
      intro r head
      cases ps with
      | nil => cases head
      | cons q qs =>
        have fits : p.Fits q := scanned.fits.rel_head? rfl
        rw [List.flatMap_cons, List.head?_append, q.head?_deepen] at head
        cases head
        exact fits.deepenComment formed

namespace Text

variable {tabs : Text}

private theorem pieces_deepen (isTab : ∀ c ∈ tabs, c = '\t') (t : Text) :
    (deepen tabs t).pieces = t.pieces.flatMap (Piece.deepen tabs) := by
  have scanned := scanned_pieces t
  have spelled : spell (t.pieces.flatMap (Piece.deepen tabs)) = deepen tabs t := by
    conv_rhs => rw [← spell_pieces t]
    have formed := scanned.wellFormed
    generalize t.pieces = ps at formed ⊢
    induction ps with
    | nil => rfl
    | cons p ps ih =>
      rw [List.flatMap_cons, spell_append, Piece.spell_deepen (formed p List.mem_cons_self),
        ih fun q later => formed q (List.mem_cons_of_mem _ later), spell_cons, deepen_append]
  rw [← spelled, pieces_spell (scanned.deepen isTab)]

private theorem marks_deepen (isTab : ∀ c ∈ tabs, c = '\t') (t : Text) :
    (deepen tabs t).marks = t.marks.map (Piece.deepenComment tabs) := by
  rw [marks, marks, pieces_deepen isTab]
  generalize t.pieces = ps
  induction ps with
  | nil => rfl
  | cons p ps ih =>
    rw [List.flatMap_cons, marksOf_append, ih]
    by_cases feed : p = .code '\n'
    · subst feed
      have gap : ∀ c ∈ '\n' :: tabs, isGap c = true := by
        intro c member
        rcases List.mem_cons.mp member with rfl | later
        · decide
        · rw [isTab c later]
          decide
      have hidden : marksOf ((Piece.code '\n').deepen tabs) = [] := marksOf_gap gap
      rw [hidden, List.nil_append, marksOf_cons_of_isGapCode (by decide)]
    · rw [Piece.deepen_of_ne feed]
      have kept := p.isGapCode_deepenComment tabs
      cases gap : p.isGapCode with
      | true =>
        rw [marksOf_cons_of_isGapCode (kept.trans gap), marksOf_cons_of_isGapCode gap]
        rfl
      | false =>
        rw [marksOf_cons (kept.trans gap), marksOf_cons gap]
        rfl

end Text

private theorem hasCall_map_deepenComment {tabs : Text} {marks : List Piece} :
    HasCall (marks.map (Piece.deepenComment tabs)) ↔ HasCall marks := by
  induction marks with
  | nil => rfl
  | cons p marks ih =>
    have literal : (∃ body, p.deepenComment tabs = .region .string body true) ↔
        ∃ body, p = .region .string body true := by
      rcases p with c | ⟨kind, body, closed⟩
      · rfl
      · cases kind <;> simp [Piece.deepenComment]
    have signs : [.code '%', .code '('] <+: marks.map (Piece.deepenComment tabs) ↔
        [.code '%', .code '('] <+: marks := by
      match marks with
      | [] => rfl
      | [q] => simp [List.cons_prefix_cons]
      | q :: q' :: marks =>
        simp only [List.map_cons, List.cons_prefix_cons, List.nil_prefix, and_true,
          @eq_comm _ (Piece.code _), Piece.deepenComment_eq_code]
    rw [List.map_cons, hasCall_cons, hasCall_cons, ih, literal, signs]

namespace Text

private theorem unlines_map_append {tabs : Text} {ls : List Text} (nonempty : ls ≠ [])
    (inLine : ∀ s ∈ ls, '\n' ∉ s) :
    unlines (ls.map (tabs ++ ·)) = tabs ++ deepen tabs (unlines ls) := by
  induction ls with
  | nil => exact absurd rfl nonempty
  | cons line ls ih =>
    have first : deepen tabs line = line := deepen_of_not_mem (inLine line List.mem_cons_self)
    cases ls with
    | nil => simp [first]
    | cons next ls =>
      have rest := ih (by simp) fun s later => inLine s (List.mem_cons_of_mem _ later)
      rw [List.map_cons] at rest ⊢
      rw [List.map_cons, unlines_cons_cons, rest, unlines_cons_cons]
      rw [deepen_append, first, deepen_cons_lineFeed, List.append_assoc]

/-- Putting lines deeper neither makes nor breaks a call. -/
theorem hasCall_indent {ls : List Text} (each : ∀ s ∈ ls, IsLine s) (depth : Nat) :
    HasCall ((unlines ls).indent depth).marks ↔ HasCall (unlines ls).marks := by
  rw [indent, lines_unlines each]
  by_cases nonempty : ls = []
  · subst nonempty
    rfl
  · have isTab : ∀ c ∈ List.replicate depth '\t', c = '\t' := fun c => List.eq_of_mem_replicate
    rw [unlines_map_append nonempty fun s member => (each s member).inLine, marks_gap_append,
      marks_deepen isTab, hasCall_map_deepenComment]
    intro c member
    rw [isTab c member]
    decide

end Text

end ScriptLoom
