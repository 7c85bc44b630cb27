import ScriptLoom.Text.Line

/-!
# Comments, literals and code

A text is read once from left to right into pieces: a comment, a string literal and a character
literal are each one piece, every other character is a piece of code. The pieces spell the text,
and every pass looks for brackets, names and keywords among the code characters only.

* A line comment runs from `//` up to the next line feed.
* A block comment runs from `/*` through the next `*/`, or to the end of the text.
* A literal runs from a quote through the same quote; a backslash takes the character after it
  along. A literal that meets a line feed or the end of the text first stops there, unclosed.
-/

namespace ScriptLoom

/-- What a region of a text is. -/
inductive Region where
  | comment
  | string
  | character
  deriving DecidableEq, Repr

/-- The kind of literal that a quote opens. -/
def Region.ofQuote? (c : Char) : Option Region :=
  if c = '"' then some .string else if c = '\'' then some .character else none

/-- A part of a text: one character of code, or a whole comment or literal. -/
inductive Piece where
  | code (char : Char)
  | region (kind : Region) (body : Text) (closed : Bool)
  deriving DecidableEq, Repr

namespace Piece

/-- The text that a piece spells. -/
def text : Piece → Text
  | .code c => [c]
  | .region _ body _ => body

/-- What is left of a piece without comments: a comment keeps its line feeds. -/
def withoutComment : Piece → Text
  | .region .comment body _ => body.filter (· = '\n')
  | piece => piece.text

end Piece

/-- The text that a list of pieces spells. -/
def spell (pieces : List Piece) : Text :=
  pieces.flatMap Piece.text

/-- No pieces spell the empty text. -/
@[simp]
theorem spell_nil : spell [] = [] :=
  rfl

/-- Pieces are spelled one after the other. -/
@[simp]
theorem spell_cons (p : Piece) (ps : List Piece) : spell (p :: ps) = p.text ++ spell ps :=
  rfl

namespace Text

/-- The rest of a region after its opening: its body, whether it is closed, and what follows. -/
structure Reading where
  body : Text
  closed : Bool
  rest : Text
  deriving DecidableEq, Repr

/-- A reading with one more character in front of its body. -/
def Reading.push (c : Char) (reading : Reading) : Reading :=
  { reading with body := c :: reading.body }

/-- Reads a block comment after its `/*`. -/
def readBlock : Text → Reading
  | [] => ⟨[], false, []⟩
  | '*' :: '/' :: t => ⟨['*', '/'], true, t⟩
  | c :: t => (readBlock t).push c

/-- Reads a literal after its opening quote. -/
def readQuoted (quote : Char) : Text → Reading
  | [] => ⟨[], false, []⟩
  | [c] =>
    if c = quote then ⟨[c], true, []⟩
    else if c = '\n' then ⟨[], false, [c]⟩
    else ⟨[c], false, []⟩
  | c :: d :: t =>
    if c = '\n' then ⟨[], false, c :: d :: t⟩
    else if c = '\\' then
      if d = '\n' then ⟨[c], false, d :: t⟩ else ((readQuoted quote t).push d).push c
    else if c = quote then ⟨[c], true, d :: t⟩
    else (readQuoted quote (d :: t)).push c

/-- A block comment and what follows it are no longer than the text read. -/
theorem length_readBlock_rest (t : Text) : (readBlock t).rest.length ≤ t.length := by
  fun_induction readBlock t with
  | case1 => simp
  | case2 => simp; omega
  | case3 c t _ ih => simp only [Reading.push, List.length_cons]; omega

/-- What follows a literal is no longer than the text read. -/
theorem length_readQuoted_rest (quote : Char) (t : Text) :
    (readQuoted quote t).rest.length ≤ t.length := by
  fun_induction readQuoted quote t <;> simp_all [Reading.push] <;> omega

/-- The pieces of a text. -/
def pieces : Text → List Piece
  | [] => []
  | '/' :: '/' :: t =>
    .region .comment ('/' :: '/' :: t.takeWhile (· ≠ '\n')) true
      :: pieces (t.dropWhile (· ≠ '\n'))
  | '/' :: '*' :: t =>
    let reading := readBlock t
    .region .comment ('/' :: '*' :: reading.body) reading.closed :: pieces reading.rest
  | c :: t =>
    match Region.ofQuote? c with
    | none => .code c :: pieces t
    | some kind =>
      let reading := readQuoted c t
      .region kind (c :: reading.body) reading.closed :: pieces reading.rest
termination_by t => t.length
decreasing_by
  · have := (List.dropWhile_suffix (fun c : Char => decide (c ≠ '\n')) (l := t)).length_le
    simp only [List.length_cons]; omega
  · have := length_readBlock_rest t
    simp only [List.length_cons]; omega
  · simp
  · have := length_readQuoted_rest c t
    simp only [List.length_cons]; omega

/-- Reading a block comment splits the text. -/
theorem readBlock_append (t : Text) : (readBlock t).body ++ (readBlock t).rest = t := by
  fun_induction readBlock t with
  | case1 => rfl
  | case2 => rfl
  | case3 c t _ ih => simpa [Reading.push] using ih

/-- Reading a literal splits the text. -/
theorem readQuoted_append (quote : Char) (t : Text) :
    (readQuoted quote t).body ++ (readQuoted quote t).rest = t := by
  fun_induction readQuoted quote t <;> simp_all [Reading.push]

/-- The pieces of a text spell it. -/
@[simp]
theorem spell_pieces (t : Text) : spell t.pieces = t := by
  fun_induction pieces t with
  | case1 => rfl
  | case2 t ih =>
    simp only [spell_cons, Piece.text, ih, List.cons_append, List.takeWhile_append_dropWhile]
  | case3 t reading ih => simp [Piece.text, ih, reading, readBlock_append]
  | case4 c t _ _ _ ih => simp [Piece.text, ih]
  | case5 c t _ _ kind _ reading ih => simp [Piece.text, ih, reading, readQuoted_append]

/-- A text without its comments. The line feeds inside comments stay, so every line keeps its
number. -/
def withoutComments (t : Text) : Text :=
  t.pieces.flatMap Piece.withoutComment

end Text

/-- The code characters of a class at the front of pieces, and the pieces after them. -/
def takeCode (p : Char → Bool) : List Piece → Text × List Piece
  | .code c :: ps =>
    if p c then
      let taken := takeCode p ps
      (c :: taken.1, taken.2)
    else ([], .code c :: ps)
  | ps => ([], ps)

/-- Taking code characters off the front splits what the pieces spell. -/
theorem spell_takeCode (p : Char → Bool) (ps : List Piece) :
    spell ps = (takeCode p ps).1 ++ spell (takeCode p ps).2 := by
  fun_induction takeCode p ps with
  | case1 c ps _ taken ih => simp only [spell_cons, Piece.text, ih]; rfl
  | case2 => rfl
  | case3 => rfl

/-- The byte range of one comment or literal. -/
structure Span where
  start : Nat
  stop : Nat
  kind : Region
  closed : Bool
  deriving DecidableEq, Repr

/-- Whether a span holds a byte offset. -/
def Span.contains (span : Span) (offset : Nat) : Bool :=
  span.start ≤ offset && offset < span.stop

/-- The number of items that precede the first one for which a test fails, found by halving the
list. The test is taken to fail for all items behind that one. -/
def partitionPoint {α : Type} (test : α → Bool) (items : List α) : Nat :=
  match split : items.drop (items.length / 2) with
  | [] => 0
  | middle :: later =>
    if test middle then items.length / 2 + 1 + partitionPoint test later
    else partitionPoint test (items.take (items.length / 2))
termination_by items.length
decreasing_by
  all_goals
    have length := congrArg List.length split
    simp only [List.length_drop, List.length_cons, List.length_take] at length ⊢
    omega

/-- The spans of the regions among pieces, the first piece at `start`. -/
def spansFrom (start : Nat) : List Piece → List Span
  | [] => []
  | .code c :: ps => spansFrom (start + c.utf8Size) ps
  | .region kind body closed :: ps =>
    ⟨start, start + Text.size body, kind, closed⟩ :: spansFrom (start + Text.size body) ps

/-- The code characters among pieces with their byte offsets, the first piece at `start`. -/
def codeFrom (start : Nat) : List Piece → List (Nat × Char)
  | [] => []
  | .code c :: ps => (start, c) :: codeFrom (start + c.utf8Size) ps
  | .region _ body _ :: ps => codeFrom (start + Text.size body) ps

namespace Text

/-- The spans of the comments and literals of a text, in order. -/
def spans (t : Text) : List Span :=
  spansFrom 0 t.pieces

/-- The spans of the comments of a text. -/
def comments (t : Text) : List Span :=
  t.spans.filter (·.kind = .comment)

/-- The spans of the literals of a text. -/
def literals (t : Text) : List Span :=
  t.spans.filter (·.kind ≠ .comment)

/-- The spans that nothing closes. -/
def unclosed (t : Text) : List Span :=
  t.spans.filter (!·.closed)

/-- The span that holds a byte offset. Spans come in order and do not overlap, so only the last one
that starts at or before the offset can hold it. -/
def spanHolding? (t : Text) (offset : Nat) : Option Span :=
  match partitionPoint (·.start ≤ offset) t.spans with
  | 0 => none
  | i + 1 => t.spans[i]?.filter (·.contains offset)

/-- Whether a byte offset lies in a comment or a literal. -/
def isIgnored (t : Text) (offset : Nat) : Bool :=
  (t.spanHolding? offset).isSome

/-- The characters outside comments and literals, with their byte offsets. -/
def code (t : Text) : List (Nat × Char) :=
  codeFrom 0 t.pieces

/-- The first place at or after an offset where a code character stands. -/
def findCode? (t : Text) (start : Nat) (c : Char) : Option Nat :=
  (t.code.find? fun (i, d) => start ≤ i && d = c).map (·.1)

end Text

end ScriptLoom
