import ScriptLoom.Proofs.LineComments

/-! # The lexical grammar

The comments and literals of a text are said here without the scanner. A region has an opening,
and an end that the text behind the opening decides (`Text.Delimited`): a line comment ends with
its line, a block comment behind the first `*/`, a literal behind the first quote of its line that
no backslash escapes. A list of spans is lexed (`Text.Lexed`) if its spans are such regions, one
after the other, and nothing opens outside of them. Every text has exactly one lexed list, the one
that the scanner gives (`Text.lexed_iff`).
-/

namespace ScriptLoom

namespace Text

/-! ### The ends of regions -/

/-- Whether a text is the shortest one with a property. -/
def IsShortest (property : Text → Prop) (t : Text) : Prop :=
  property t ∧ ∀ other, property other → t.length ≤ other.length

/-- Whether a text behind a `/*` goes on with `*/` after a given beginning. -/
def ClosesBlock (tail before : Text) : Prop :=
  before ++ ['*', '/'] <+: tail

/-- Whether a backslash at the end of a text takes the next character along; backslashes are read
in pairs with what follows them, from the start of the text. -/
def endsEscaping (t : Text) : Bool :=
  t.foldl (fun escaping c => !escaping && c == '\\') false

/-- Whether a text behind an opening quote goes on with that quote after a given beginning, on the
same line and not escaped. -/
def ClosesLiteral (quote : Char) (tail before : Text) : Prop :=
  before ++ [quote] <+: tail ∧ '\n' ∉ before ∧ before.endsEscaping = false

/-- Whether a reading stops behind a mark that follows the shortest text with a property, and is
open if there is no such text. -/
structure Reading.StopsAt (reading : Reading) (property : Text → Prop) (mark : Text) : Prop where
  closed_iff : reading.closed = true ↔ ∃ before, property before
  stops : reading.closed = true →
    ∃ before, IsShortest property before ∧ reading.body = before ++ mark

/-- A region of a given kind: its text, whether it is closed, and what follows it. -/
inductive Delimited : Region → Text → Bool → Text → Prop
  | line {body rest : Text} (inLine : '\n' ∉ body) (stops : rest.LineEnds) :
      Delimited .comment ('/' :: '/' :: body) true rest
  | block {body rest : Text} {closed : Bool}
      (stops : Reading.StopsAt ⟨body, closed, rest⟩ (ClosesBlock (body ++ rest)) ['*', '/'])
      (runs : closed = false → rest = []) :
      Delimited .comment ('/' :: '*' :: body) closed rest
  | literal {quote : Char} {kind : Region} {body rest : Text} {closed : Bool}
      (opens : Region.ofQuote? quote = some kind) (inLine : '\n' ∉ body)
      (stops : Reading.StopsAt ⟨body, closed, rest⟩ (ClosesLiteral quote (body ++ rest)) [quote])
      (runs : closed = false → rest.LineEnds) :
      Delimited kind (quote :: body) closed rest

/-- Whether a comment or a literal opens at the front of a text. -/
def OpensRegion (t : Text) : Prop :=
  t.head? = some '"' ∨ t.head? = some '\'' ∨ ['/', '/'] <+: t ∨ ['/', '*'] <+: t

/-- Whether a span holds a region of a text. -/
def HoldsRegion (t : Text) (span : Span) : Prop :=
  ∃ before body after, t = before ++ (body ++ after) ∧ span.start = size before ∧
    span.stop = size before + size body ∧ Delimited span.kind body span.closed after

/-- A list of spans that divides a text into regions and code: each span holds a region, they
follow each other, and nothing opens where none of them is. -/
structure Lexed (t : Text) (spans : List Span) : Prop where
  ordered : spans.Pairwise (·.stop ≤ ·.start)
  regions : ∀ span ∈ spans, t.HoldsRegion span
  code : ∀ before after, t = before ++ after →
    (∀ span ∈ spans, span.contains (size before) = false) → ¬OpensRegion after

private theorem IsShortest.eq {property : Text → Prop} {s t tail : Text}
    (left : IsShortest property s) (right : IsShortest property t)
    (front : ∀ u, property u → u <+: tail) : s = t := by
  have length : s.length = t.length := Nat.le_antisymm (left.2 t right.1) (right.2 s left.1)
  exact (List.prefix_of_prefix_length_le (front s left.1) (front t right.1) length.le).eq_of_length
    length

/-! ### Readings that end at the first mark -/

namespace Reading.StopsAt

variable {property rest : Text → Prop} {mark : Text} {reading : Reading}

private theorem here (holds : property [])
    {tail : Text} : StopsAt ⟨mark, true, tail⟩ property mark :=
  ⟨⟨fun _ => ⟨[], holds⟩, fun _ => rfl⟩, fun _ => ⟨[], ⟨holds, fun _ _ => Nat.zero_le _⟩, rfl⟩⟩

private theorem nowhere (none : ∀ before, ¬property before) {body tail : Text} :
    StopsAt ⟨body, false, tail⟩ property mark :=
  ⟨⟨nofun, fun ⟨before, holds⟩ => absurd holds (none before)⟩, nofun⟩

/-- What stands in front of every text with a property is read before the mark is looked for. -/
theorem append (later : reading.StopsAt rest mark) (front : Text)
    (shift : ∀ u, property u ↔ ∃ v, u = front ++ v ∧ rest v) :
    StopsAt { reading with body := front ++ reading.body } property mark := by
  refine ⟨later.closed_iff.trans ⟨?_, ?_⟩, fun closed => ?_⟩
  · rintro ⟨v, holds⟩
    exact ⟨front ++ v, (shift _).mpr ⟨v, rfl, holds⟩⟩
  · rintro ⟨u, holds⟩
    obtain ⟨v, -, found⟩ := (shift u).mp holds
    exact ⟨v, found⟩
  · obtain ⟨before, ⟨holds, least⟩, body⟩ := later.stops closed
    refine ⟨front ++ before, ⟨(shift _).mpr ⟨before, rfl, holds⟩, ?_⟩, ?_⟩
    · intro other found
      obtain ⟨v, rfl, inRest⟩ := (shift other).mp found
      rw [List.length_append, List.length_append]
      exact Nat.add_le_add_left (least v inRest) _
    · rw [body, List.append_assoc]

/-- Two readings that stop at the same mark agree on whether they are closed, and then on their
bodies. -/
theorem agree {other : Reading} {tail : Text} (left : reading.StopsAt property mark)
    (right : other.StopsAt property mark) (front : ∀ u, property u → u <+: tail) :
    reading.closed = other.closed ∧ (reading.closed = true → reading.body = other.body) := by
  have same : reading.closed = other.closed :=
    Bool.eq_iff_iff.mpr (left.closed_iff.trans right.closed_iff.symm)
  refine ⟨same, fun closed => ?_⟩
  obtain ⟨before, shortest, body⟩ := left.stops closed
  obtain ⟨before', shortest', body'⟩ := right.stops (same ▸ closed)
  rw [body, body', shortest.eq shortest' front]

end Reading.StopsAt

/-! ### Block comments -/

private theorem ClosesBlock.isPrefix {t before : Text}
    (closes : ClosesBlock t before) : before <+: t :=
  (List.prefix_append _ _).trans closes

private theorem closesBlock_cons {c : Char} {t : Text} (inside : ¬(c = '*' ∧ t.head? = some '/'))
    (before : Text) :
    ClosesBlock (c :: t) before ↔ ∃ rest, before = [c] ++ rest ∧ ClosesBlock t rest := by
  cases before with
  | nil =>
    have none : ¬ClosesBlock (c :: t) [] := by
      rintro ⟨rest, same⟩
      cases same
      exact inside ⟨rfl, rfl⟩
    simp [none]
  | cons d before =>
    simp only [ClosesBlock, List.cons_append, List.cons_prefix_cons, List.nil_append,
      List.cons.injEq]
    constructor
    · rintro ⟨rfl, closes⟩
      exact ⟨before, ⟨rfl, rfl⟩, closes⟩
    · rintro ⟨rest, ⟨rfl, rfl⟩, closes⟩
      exact ⟨rfl, closes⟩

/-- A block comment is read through the first `*/`, if there is one. -/
theorem stopsAt_readBlock (t : Text) : (readBlock t).StopsAt (ClosesBlock t) ['*', '/'] := by
  fun_induction readBlock t with
  | case1 =>
    apply Reading.StopsAt.nowhere
    intro before closes
    simpa [ClosesBlock] using closes.length_le
  | case2 t => exact .here ⟨t, rfl⟩
  | case3 c t noClose ih =>
    refine ih.append [c] (closesBlock_cons ?_)
    rintro ⟨star, slash⟩
    obtain ⟨rest, rfl⟩ := List.head?_eq_some_iff.mp slash
    exact noClose rest star rfl

/-! ### Literals -/

private theorem endsEscaping_cons {c : Char} (plain : c ≠ '\\') (t : Text) :
    endsEscaping (c :: t) = endsEscaping t := by
  have other : (c == '\\') = false := beq_eq_false_iff_ne.mpr plain
  simp [endsEscaping, other]

private theorem endsEscaping_escape (d : Char) (t : Text) :
    endsEscaping ('\\' :: d :: t) = endsEscaping t := by
  simp [endsEscaping]

variable {quote : Char}

private theorem ClosesLiteral.isPrefix {t before : Text} (closes : ClosesLiteral quote t before) :
    before <+: t :=
  (List.prefix_append _ _).trans closes.1

private theorem not_closesLiteral_of_lineEnds (other : quote ≠ '\n') {t : Text} (ends : t.LineEnds)
    (before : Text) : ¬ClosesLiteral quote t before := by
  rintro ⟨⟨rest, rfl⟩, inLine, -⟩
  rcases ends with empty | feed
  · simp at empty
  · cases before with
    | nil => exact other (by simpa using feed)
    | cons c before => exact inLine (by simp_all)

private theorem closesLiteral_cons {c : Char} (inLine : c ≠ '\n') (plain : c ≠ '\\')
    (inside : c ≠ quote) (t before : Text) :
    ClosesLiteral quote (c :: t) before ↔
      ∃ rest, before = [c] ++ rest ∧ ClosesLiteral quote t rest := by
  cases before with
  | nil => simp [ClosesLiteral, inside.symm]
  | cons d before =>
    simp only [ClosesLiteral, List.cons_append, List.cons_prefix_cons, List.nil_append,
      List.cons.injEq]
    constructor
    · rintro ⟨⟨rfl, closes⟩, line, even⟩
      rw [endsEscaping_cons plain] at even
      exact ⟨before, ⟨rfl, rfl⟩, closes, List.not_mem_of_not_mem_cons line, even⟩
    · rintro ⟨rest, ⟨rfl, rfl⟩, closes, line, even⟩
      refine ⟨⟨rfl, closes⟩, List.not_mem_cons_of_ne_of_not_mem inLine.symm line, ?_⟩
      rwa [endsEscaping_cons plain]

private theorem closesLiteral_escape (plain : quote ≠ '\\') {d : Char} (inLine : d ≠ '\n')
    (t before : Text) :
    ClosesLiteral quote ('\\' :: d :: t) before ↔
      ∃ rest, before = ['\\', d] ++ rest ∧ ClosesLiteral quote t rest := by
  rcases before with _ | ⟨c, _ | ⟨e, before⟩⟩
  · simp [ClosesLiteral, plain]
  · have escaping : ¬ClosesLiteral quote ('\\' :: d :: t) [c] := by
      rintro ⟨⟨rest, same⟩, -, even⟩
      cases same
      exact absurd even (by decide)
    simp [escaping]
  · simp only [ClosesLiteral, List.cons_append, List.cons_prefix_cons, List.nil_append,
      List.cons.injEq]
    constructor
    · rintro ⟨⟨rfl, rfl, closes⟩, line, even⟩
      rw [endsEscaping_escape] at even
      simp only [List.mem_cons, not_or] at line
      exact ⟨before, ⟨rfl, rfl, rfl⟩, closes, line.2.2, even⟩
    · rintro ⟨rest, ⟨rfl, rfl, rfl⟩, closes, line, even⟩
      refine ⟨⟨rfl, rfl, closes⟩, ?_, ?_⟩
      · simp [line, inLine.symm]
      · rwa [endsEscaping_escape]

/-- A literal is read through the first quote of its line that is not escaped, if there is one. -/
theorem stopsAt_readQuoted (plain : quote ≠ '\\') (inLine : quote ≠ '\n') (t : Text) :
    (readQuoted quote t).StopsAt (ClosesLiteral quote t) [quote] := by
  have here : ∀ t : Text, ClosesLiteral quote (quote :: t) [] := fun t =>
    ⟨⟨t, rfl⟩, by simp, rfl⟩
  fun_induction readQuoted quote t with
  | case1 => exact .nowhere (not_closesLiteral_of_lineEnds inLine (.inl rfl))
  | case2 => exact .here (here [])
  | case3 => exact .nowhere (not_closesLiteral_of_lineEnds inLine (.inr rfl))
  | case4 c other line =>
    apply Reading.StopsAt.nowhere
    rintro before ⟨⟨rest, same⟩, -⟩
    cases before with
    | nil => exact other (List.cons.inj same).1.symm
    | cons d before => simp at same
  | case5 => exact .nowhere (not_closesLiteral_of_lineEnds inLine (.inr rfl))
  | case6 t =>
    apply Reading.StopsAt.nowhere
    rintro before ⟨⟨rest, same⟩, line, even⟩
    -- The quote would be the backslash, what it escapes, or on the next line.
    rcases before with _ | ⟨c, _ | ⟨d, before⟩⟩
    · exact plain (List.cons.inj same).1
    · cases same
      exact absurd rfl inLine
    · cases same
      simp at line
  | case7 d t line _ ih => exact ih.append ['\\', d] (closesLiteral_escape plain line t)
  | case8 => exact .here (here _)
  | case9 c d t line slash other ih => exact ih.append [c] (closesLiteral_cons line slash other _)

/-! ### Regions and pieces -/

/-- A text is cut in one way where its line ends. -/
theorem eq_of_append_eq_append_of_lineEnds {s t u v : Text} (inLine : '\n' ∉ s) (inLine' : '\n' ∉ t)
    (ends : u.LineEnds) (ends' : v.LineEnds) (same : s ++ u = t ++ v) : s = t := by
  have front : ∀ {s u : Text}, '\n' ∉ s → u.LineEnds → (s ++ u).takeWhile (· ≠ '\n') = s := by
    intro s u inLine ends
    rw [takeWhile_append_of_not_mem inLine]
    rcases ends with rfl | feed
    · exact List.append_nil s
    · obtain ⟨rest, rfl⟩ := List.head?_eq_some_iff.mp feed
      simp
  rw [← front inLine ends, same, front inLine' ends']

private theorem Reading.eq_of_body_eq {reading other : Reading}
    (flag : reading.closed = other.closed) (bodies : reading.body = other.body)
    (whole : reading.body ++ reading.rest = other.body ++ other.rest) : reading = other := by
  rw [bodies, List.append_cancel_left_eq] at whole
  cases reading
  cases other
  simp_all

private theorem readBlock_of_stopsAt {body rest : Text} {closed : Bool}
    (stops : Reading.StopsAt ⟨body, closed, rest⟩ (ClosesBlock (body ++ rest)) ['*', '/'])
    (runs : closed = false → rest = []) : readBlock (body ++ rest) = ⟨body, closed, rest⟩ := by
  obtain ⟨flag, same⟩ := (stopsAt_readBlock (body ++ rest)).agree stops
    fun u closes => closes.isPrefix
  have whole := readBlock_append (body ++ rest)
  refine Reading.eq_of_body_eq flag ?_ whole
  cases closed with
  | true => exact same flag
  | false =>
    obtain rfl := runs rfl
    rw [(blockBody_readBlock _).2 flag, List.append_nil] at whole
    exact whole.trans (List.append_nil body)

private theorem readQuoted_of_stopsAt (plain : quote ≠ '\\') (feed : quote ≠ '\n')
    {body rest : Text} {closed : Bool} (inLine : '\n' ∉ body)
    (stops : Reading.StopsAt ⟨body, closed, rest⟩ (ClosesLiteral quote (body ++ rest)) [quote])
    (runs : closed = false → rest.LineEnds) :
    readQuoted quote (body ++ rest) = ⟨body, closed, rest⟩ := by
  obtain ⟨flag, same⟩ := (stopsAt_readQuoted plain feed (body ++ rest)).agree stops
    fun u closes => closes.isPrefix
  have whole := readQuoted_append quote (body ++ rest)
  refine Reading.eq_of_body_eq flag ?_ whole
  cases closed with
  | true => exact same flag
  | false =>
    obtain ⟨grammar, ends⟩ : LiteralBody quote _ _ ∧ _ := literalBody_readQuoted (body ++ rest)
    exact eq_of_append_eq_append_of_lineEnds (grammar.not_mem_lineFeed feed) inLine (ends flag)
      (runs rfl) whole

/-- A region is what the scanner forms, where it may stand. -/
theorem delimited_iff {kind : Region} {body rest : Text} {closed : Bool} :
    Delimited kind body closed rest ↔
      (Piece.region kind body closed).WellFormed ∧ (Piece.region kind body closed).Before rest := by
  constructor
  · intro delimited
    cases delimited with
    | line inLine stops =>
      exact ⟨.line inLine, by simp, fun _ => stops, by simp [Piece.endsWithText]⟩
    | @block body _ _ stops runs =>
      have grammar := (blockBody_readBlock (body ++ rest)).1
      rw [readBlock_of_stopsAt stops runs] at grammar
      exact ⟨.block grammar, by simp, by simp [Piece.endsWithLine, startsWith],
        fun opened => runs (by simpa [Piece.endsWithText] using opened)⟩
    | @literal quote _ body _ _ opens inLine stops runs =>
      obtain ⟨plain, feed, -, noComment⟩ := Region.ofQuote?_eq_some opens
      have grammar : LiteralBody quote _ _ := (literalBody_readQuoted (body ++ rest)).1
      rw [readQuoted_of_stopsAt plain feed inLine stops runs] at grammar
      refine ⟨.literal opens grammar, by simp, fun opened => runs ?_, fun opened => ?_⟩
      · cases kind <;> simp_all [Piece.endsWithLine]
      · cases kind <;> simp_all [Piece.endsWithText]
  · rintro ⟨formed, before⟩
    cases formed with
    | line inLine => exact .line inLine (before.line rfl)
    | @block body _ grammar =>
      have runs : closed = false → rest = [] := by
        rintro rfl
        exact before.text rfl
      have stops := stopsAt_readBlock (body ++ rest)
      rw [readBlock_of_blockBody grammar runs] at stops
      exact .block stops runs
    | @literal quote _ body _ opens grammar =>
      obtain ⟨plain, feed, -, noComment⟩ := Region.ofQuote?_eq_some opens
      have runs : closed = false → rest.LineEnds := by
        rintro rfl
        apply before.line
        cases kind with
        | comment => exact absurd rfl noComment
        | string => rfl
        | character => rfl
      have stops := stopsAt_readQuoted plain feed (body ++ rest)
      rw [readQuoted_of_literalBody plain feed grammar runs] at stops
      exact .literal opens (grammar.not_mem_lineFeed feed) stops runs

/-- A region that is well-formed opens at the front of its text. -/
theorem opensRegion_of_wellFormed {kind : Region} {body : Text} {closed : Bool}
    (formed : (Piece.region kind body closed).WellFormed) (rest : Text) :
    OpensRegion (body ++ rest) := by
  cases formed with
  | line => exact .inr (.inr (.inl ⟨_, rfl⟩))
  | block => exact .inr (.inr (.inr ⟨_, rfl⟩))
  | literal opens =>
    unfold Region.ofQuote? at opens
    split at opens
    · next quote => exact .inl (by simp [quote])
    · split at opens
      · next quote => exact .inr (.inl (by simp [quote]))
      · cases opens

private theorem not_opensRegion_code {c : Char} {rest : Text} (formed : (Piece.code c).WellFormed)
    (before : (Piece.code c).Before rest) : ¬OpensRegion (c :: rest) := by
  cases formed with
  | code plain =>
    rintro (quote | quote | ⟨more, same⟩ | ⟨more, same⟩)
    · obtain rfl : c = '"' := by simpa using quote
      cases plain
    · obtain rfl : c = '\'' := by simpa using quote
      cases plain
    · cases same
      exact (before.slash rfl).1 rfl
    · cases same
      exact (before.slash rfl).2 rfl

/-! ### The spans of a text -/

private theorem eq_nil_of_size_eq_zero {t : Text} (empty : size t = 0) : t = [] := by
  cases t with
  | nil => rfl
  | cons c t =>
    have := c.utf8Size_pos
    rw [size_cons] at empty
    omega

/-- Of two places in a text the later one has the text between them before it. -/
theorem exists_append_of_size_le {s t u v : Text} (same : s ++ t = u ++ v)
    (le : size s ≤ size u) : ∃ between, u = s ++ between ∧ t = between ++ v := by
  rcases List.append_eq_append_iff.mp same with ⟨between, rfl, rfl⟩ | ⟨between, rfl, rfl⟩
  · exact ⟨between, rfl, rfl⟩
  · rw [size_append] at le
    obtain rfl := eq_nil_of_size_eq_zero (by omega : size between = 0)
    exact ⟨[], by simp, by simp⟩

/-- A region is not empty. -/
theorem size_pos_of_delimited {kind : Region} {body rest : Text} {closed : Bool}
    (delimited : Delimited kind body closed rest) : 0 < size body := by
  have nonempty := (delimited_iff.mp delimited).1.text_ne_nil
  exact Nat.pos_of_ne_zero fun empty => nonempty (eq_nil_of_size_eq_zero empty)

/-- A piece of a text stands before the text of the pieces behind it. -/
theorem before_of_pieces {t : Text} {done ps : List Piece} {p : Piece}
    (split : t.pieces = done ++ p :: ps) : p.WellFormed ∧ p.Before (spell ps) := by
  have formed := (scanned_pieces t).wellFormed p (by simp [split])
  have own : pieces (spell (p :: ps)) = p :: ps :=
    pieces_spell_part ⟨done, [], by rw [split, List.append_nil]⟩
  have nonempty : spell (p :: ps) ≠ [] := by simp [formed.text_ne_nil]
  obtain ⟨q, rest, whole, read, -, before⟩ := exists_pieces_eq_cons nonempty
  obtain ⟨rfl, -⟩ := List.cons.inj (own.symm.trans read)
  rw [spell_cons, List.append_cancel_left_eq] at whole
  exact ⟨formed, whole ▸ before⟩

/-- Whether spans divide a text from a place on. -/
structure LexedFrom (t : Text) (start : Nat) (spans : List Span) : Prop where
  ordered : spans.Pairwise (·.stop ≤ ·.start)
  regions : ∀ span ∈ spans, t.HoldsRegion span
  starts : ∀ span ∈ spans, start ≤ span.start
  code : ∀ before after, t = before ++ after → start ≤ size before →
    (∀ span ∈ spans, span.contains (size before) = false) → ¬OpensRegion after

variable {t : Text} {done ps : List Piece} {spans : List Span}

private theorem lexedFrom_nil : LexedFrom t (size t) spans ↔ spans = [] := by
  constructor
  · intro lexed
    apply List.eq_nil_iff_forall_not_mem.mpr
    intro span member
    obtain ⟨before, body, after, rfl, start, -, delimited⟩ := lexed.regions span member
    have bound := lexed.starts span member
    have positive := size_pos_of_delimited delimited
    rw [start, size_append, size_append] at bound
    omega
  · rintro rfl
    refine ⟨.nil, nofun, nofun, ?_⟩
    rintro before after rfl reached -
    rw [size_append] at reached
    obtain rfl := eq_nil_of_size_eq_zero (by omega : size after = 0)
    rintro (quote | quote | ⟨more, same⟩ | ⟨more, same⟩)
    · cases quote
    · cases quote
    · cases same
    · cases same

/-- No region starts at a character of code. -/
theorem lexedFrom_code {c : Char} (split : t.pieces = done ++ .code c :: ps) :
    LexedFrom t (size (spell done)) spans ↔
      LexedFrom t (size (spell done) + c.utf8Size) spans := by
  have whole : t = spell done ++ c :: spell ps := by
    rw [← spell_pieces t, split, spell_append]
    rfl
  obtain ⟨formed, stands⟩ := before_of_pieces split
  have closed := not_opensRegion_code formed stands
  -- A place behind the start of the character is behind its end.
  have passed : ∀ {before after : Text}, t = before ++ after → size (spell done) ≤ size before →
      OpensRegion after → size (spell done) + c.utf8Size ≤ size before := by
    intro before after same reached opens
    obtain ⟨between, rfl, rest⟩ := exists_append_of_size_le (whole.symm.trans same) reached
    cases between with
    | nil => exact absurd (rest ▸ opens) closed
    | cons d between =>
      obtain ⟨rfl, -⟩ := List.cons.inj rest
      rw [size_append, size_cons]
      omega
  constructor
  · intro lexed
    refine ⟨lexed.ordered, lexed.regions, fun span member => ?_, fun before after same reached =>
      lexed.code before after same (by omega)⟩
    obtain ⟨before, body, after, same, start, -, delimited⟩ := lexed.regions span member
    have reached := lexed.starts span member
    rw [start] at reached ⊢
    exact passed same reached (opensRegion_of_wellFormed (delimited_iff.mp delimited).1 after)
  · intro lexed
    refine ⟨lexed.ordered, lexed.regions, fun span member => ?_, fun before after same reached
      outside opens => ?_⟩
    · have := lexed.starts span member
      omega
    · exact lexed.code before after same (passed same reached opens) outside opens

/-- The region at a place is the piece that is read there. -/
theorem HoldsRegion.eq_of_start {kind : Region} {body : Text} {closed : Bool} {span : Span}
    (region : t.HoldsRegion span) (split : t.pieces = done ++ .region kind body closed :: ps)
    (start : span.start = size (spell done)) :
    span = ⟨size (spell done), size (spell done) + size body, kind, closed⟩ := by
  have whole : t = spell done ++ (body ++ spell ps) := by
    rw [← spell_pieces t, split, spell_append]
    rfl
  obtain ⟨formed, stands⟩ := before_of_pieces split
  obtain ⟨before, body', after, same, place, stop, delimited⟩ := region
  obtain ⟨between, rfl, rest⟩ :=
    exists_append_of_size_le (whole.symm.trans same) (Nat.le_of_eq (start.symm.trans place))
  rw [size_append, start] at place
  obtain rfl := eq_nil_of_size_eq_zero (by omega : size between = 0)
  obtain ⟨formed', stands'⟩ := delimited_iff.mp delimited
  have read : pieces (body ++ spell ps) = _ := pieces_text_append formed stands
  have read' : pieces (body' ++ after) = _ := pieces_text_append formed' stands'
  rw [rest, List.nil_append, read'] at read
  rw [List.append_nil] at stop
  obtain ⟨start', stop', kind', closed'⟩ := span
  cases (List.cons.inj read).1
  cases start
  cases stop
  rfl

/-- At a region one span starts, and the others follow it. -/
theorem lexedFrom_region {kind : Region} {body : Text} {closed : Bool}
    (split : t.pieces = done ++ .region kind body closed :: ps) :
    LexedFrom t (size (spell done)) spans ↔
      ∃ later, spans = ⟨size (spell done), size (spell done) + size body, kind, closed⟩ :: later ∧
        LexedFrom t (size (spell done) + size body) later := by
  have whole : t = spell done ++ (body ++ spell ps) := by
    rw [← spell_pieces t, split, spell_append]
    rfl
  obtain ⟨formed, stands⟩ := before_of_pieces split
  have opens := opensRegion_of_wellFormed formed (spell ps)
  constructor
  · intro lexed
    obtain ⟨span, member, held⟩ : ∃ span ∈ spans, span.contains (size (spell done)) = true := by
      by_contra! outside
      exact lexed.code _ _ whole (Nat.le_refl _) (by simpa using outside) opens
    have reached := lexed.starts span member
    simp only [Span.contains, Bool.and_eq_true, decide_eq_true_eq] at held
    have same := (lexed.regions span member).eq_of_start split (by omega)
    cases spans with
    | nil => cases member
    | cons first later =>
      obtain ⟨follow, ordered⟩ := List.pairwise_cons.mp lexed.ordered
      -- A span before this one would have to end where it starts.
      have head : first = span := by
        rcases List.mem_cons.mp member with rfl | inLater
        · rfl
        · have before := follow span inLater
          have start := lexed.starts first List.mem_cons_self
          obtain ⟨_, own, _, _, low, high, delimited⟩ := lexed.regions first List.mem_cons_self
          have nonempty := size_pos_of_delimited delimited
          omega
      refine ⟨later, by rw [head, same], ordered,
        fun s inLater => lexed.regions s (List.mem_cons_of_mem _ inLater), fun s inLater => ?_, ?_⟩
      · have := follow s inLater
        rw [head, same] at this
        exact this
      · intro before after place behind outside
        refine lexed.code before after place (by omega) fun s listed => ?_
        rcases List.mem_cons.mp listed with rfl | inLater
        · rw [head, same]
          simp only [Span.contains, Bool.and_eq_false_iff, decide_eq_false_iff_not]
          omega
        · exact outside s inLater
  · rintro ⟨later, rfl, lexed⟩
    have delimited := delimited_iff.mpr ⟨formed, stands⟩
    refine ⟨List.pairwise_cons.mpr ⟨lexed.starts, lexed.ordered⟩,
      List.forall_mem_cons.mpr ⟨⟨_, body, spell ps, whole, rfl, rfl, delimited⟩, lexed.regions⟩,
      List.forall_mem_cons.mpr ⟨Nat.le_refl _, fun s member => ?_⟩, ?_⟩
    · have := lexed.starts s member
      omega
    · intro before after place reached outside
      obtain ⟨first, others⟩ := List.forall_mem_cons.mp outside
      simp only [Span.contains, Bool.and_eq_false_iff, decide_eq_false_iff_not] at first
      exact lexed.code before after place (by omega) others

/-- From every piece on the spans of the pieces are the only ones that divide a text. -/
theorem lexedFrom_iff (split : t.pieces = done ++ ps) :
    LexedFrom t (size (spell done)) spans ↔ spans = spansFrom (size (spell done)) ps := by
  induction ps generalizing done spans with
  | nil =>
    have whole : spell done = t := by rw [← spell_pieces t, split, List.append_nil]
    rw [whole]
    exact lexedFrom_nil
  | cons p ps ih =>
    have further : ∀ {spans}, LexedFrom t (size (spell (done ++ [p]))) spans ↔ _ := fun {_} =>
      ih (by rw [split, List.append_assoc]; rfl)
    have place : size (spell (done ++ [p])) = size (spell done) + size p.text := by
      rw [spell_append, size_append, spell_cons, spell_nil, List.append_nil]
    rw [place] at further
    cases p with
    | code c => exact (lexedFrom_code split).trans further
    | region kind body closed =>
      rw [lexedFrom_region split, spansFrom]
      constructor
      · rintro ⟨later, rfl, lexed⟩
        exact congrArg _ (further.mp lexed)
      · rintro rfl
        exact ⟨_, rfl, further.mpr rfl⟩

/-- **The scanner recognises its grammar.** The spans of a text are the one list of spans that
divides the text into regions and code. -/
theorem lexed_iff (t : Text) (spans : List Span) : t.Lexed spans ↔ spans = t.spans := by
  have fromStart : t.Lexed spans ↔ LexedFrom t 0 spans :=
    ⟨fun lexed => ⟨lexed.ordered, lexed.regions, fun _ _ => Nat.zero_le _,
      fun before after place _ => lexed.code before after place⟩,
    fun lexed => ⟨lexed.ordered, lexed.regions, fun before after place =>
      lexed.code before after place (Nat.zero_le _)⟩⟩
  have read : LexedFrom t (size (spell [])) spans ↔ spans = spansFrom (size (spell [])) t.pieces :=
    lexedFrom_iff rfl
  exact fromStart.trans read

end Text

end ScriptLoom
