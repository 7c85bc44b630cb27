import Mathlib.Data.List.Chain
import Mathlib.Data.List.DropRight
import Mathlib.Data.List.TakeWhile
import ScriptLoom.Bracket

/-! # The grammar of pieces

Reading a text into pieces can be undone: a list of pieces is the reading of the text that it
spells exactly when each piece is formed as the scanner forms it (`Piece.WellFormed`) and each
piece may stand before the next one (`Piece.Fits`). The two conditions together are `Scanned`,
and `Text.pieces_spell` and `Text.scanned_pieces` say that they characterise readings.

What a pass does to a text is described on its pieces from here on: a result is read back by
showing that its pieces are well formed and fit at the few places where the pass has joined them.
-/

namespace ScriptLoom

namespace Text

/-- A condition on the characters of a text is decided along the text, not over all characters. -/
instance decidableForallMem (t : Text) (p : Char → Prop) [DecidablePred p] :
    Decidable (∀ c ∈ t, p c) :=
  List.decidableBAll p t

/-! ### Block comments -/

/-- What stands after the `/*` of a block comment, and whether the comment is closed. -/
inductive BlockBody : Text → Bool → Prop
  | close : BlockBody ['*', '/'] true
  | stop : BlockBody [] false
  | char {c : Char} {body : Text} {closed : Bool} (inside : ¬(c = '*' ∧ body.head? = some '/'))
      (rest : BlockBody body closed) : BlockBody (c :: body) closed

/-- A reading of a block comment has such a body, and an open comment runs to the end. -/
theorem blockBody_readBlock (t : Text) :
    BlockBody (readBlock t).body (readBlock t).closed ∧
      ((readBlock t).closed = false → (readBlock t).rest = []) := by
  fun_induction readBlock t with
  | case1 => exact ⟨.stop, fun _ => rfl⟩
  | case2 => exact ⟨.close, by simp⟩
  | case3 c t noClose ih =>
    refine ⟨.char ?_ ih.1, ih.2⟩
    rintro ⟨star, slash⟩
    -- the body starts with a slash only if the text does
    have split := readBlock_append t
    cases body : (readBlock t).body with
    | nil => simp [body] at slash
    | cons d rest =>
      rw [body] at split slash
      obtain rfl : d = '/' := by simpa using slash
      exact noClose (rest ++ (readBlock t).rest) star (by simpa using split.symm)

/-- One more character of a block comment. -/
theorem readBlock_cons {c : Char} {t : Text} (inside : ¬(c = '*' ∧ t.head? = some '/')) :
    readBlock (c :: t) = (readBlock t).push c := by
  rw [readBlock.eq_3]
  rintro rest rfl rfl
  exact inside ⟨rfl, rfl⟩

/-- A closed block comment is read whatever follows. -/
theorem readBlock_append_of_closed {body : Text} (closed : BlockBody body true) (t : Text) :
    readBlock (body ++ t) = ⟨body, true, t⟩ := by
  generalize flag : true = isClosed at closed
  induction closed with
  | close => rfl
  | stop => cases flag
  | @char c body _ inside rest ih =>
    have inside' : ¬(c = '*' ∧ (body ++ t).head? = some '/') := by
      cases rest with
      | close => simp
      | stop => cases flag
      | char => simpa using inside
    rw [List.cons_append, readBlock_cons inside', ih flag]
    rfl

/-- An open block comment is read at the end. -/
theorem readBlock_of_open {body : Text} (opened : BlockBody body false) :
    readBlock body = ⟨body, false, []⟩ := by
  generalize flag : false = isClosed at opened
  induction opened with
  | close => cases flag
  | stop => rfl
  | char inside rest ih =>
    rw [readBlock_cons inside, ih flag]
    rfl

/-- A block comment is read if it is closed or nothing follows. -/
theorem readBlock_of_blockBody {body t : Text} {closed : Bool} (grammar : BlockBody body closed)
    (toEnd : closed = false → t = []) : readBlock (body ++ t) = ⟨body, closed, t⟩ := by
  cases closed with
  | true => exact readBlock_append_of_closed grammar t
  | false =>
    obtain rfl := toEnd rfl
    simpa using readBlock_of_open grammar

/-! ### Literals -/

/-- What stands after the opening quote of a literal, and whether the literal is closed. -/
inductive LiteralBody (quote : Char) : Text → Bool → Prop
  | close : LiteralBody quote [quote] true
  | stop : LiteralBody quote [] false
  | stopEscape : LiteralBody quote ['\\'] false
  | escape {d : Char} {body : Text} {closed : Bool} (inLine : d ≠ '\n')
      (rest : LiteralBody quote body closed) : LiteralBody quote ('\\' :: d :: body) closed
  | char {c : Char} {body : Text} {closed : Bool} (inLine : c ≠ '\n') (plain : c ≠ '\\')
      (inside : c ≠ quote) (rest : LiteralBody quote body closed) :
      LiteralBody quote (c :: body) closed

/-- Whether a text is over or goes on with a new line. -/
def LineEnds (t : Text) : Prop :=
  t = [] ∨ t.head? = some '\n'

variable {quote : Char}

/-- A reading of a literal has such a body, and an open literal runs to the end of its line. -/
theorem literalBody_readQuoted (t : Text) :
    LiteralBody quote (readQuoted quote t).body (readQuoted quote t).closed ∧
      ((readQuoted quote t).closed = false → LineEnds (readQuoted quote t).rest) := by
  fun_induction readQuoted quote t with
  | case1 => exact ⟨.stop, fun _ => .inl rfl⟩
  | case2 => exact ⟨.close, by simp⟩
  | case3 => exact ⟨.stop, fun _ => .inr rfl⟩
  | case4 c other line =>
    refine ⟨?_, fun _ => .inl rfl⟩
    by_cases slash : c = '\\'
    · subst slash
      exact .stopEscape
    · exact .char line slash other .stop
  | case5 => exact ⟨.stop, fun _ => .inr rfl⟩
  | case6 => exact ⟨.stopEscape, fun _ => .inr rfl⟩
  | case7 d t line _ ih => exact ⟨.escape line ih.1, ih.2⟩
  | case8 => exact ⟨.close, by simp⟩
  | case9 c d t line slash other ih => exact ⟨.char line slash other ih.1, ih.2⟩

/-- A closing quote ends a literal. -/
theorem readQuoted_quote (plain : quote ≠ '\\') (inLine : quote ≠ '\n') (t : Text) :
    readQuoted quote (quote :: t) = ⟨[quote], true, t⟩ := by
  cases t <;> simp [readQuoted, plain, inLine]

/-- An escaped character belongs to a literal. -/
theorem readQuoted_escape {d : Char} (inLine : d ≠ '\n') (t : Text) :
    readQuoted quote ('\\' :: d :: t) = ((readQuoted quote t).push d).push '\\' := by
  simp [readQuoted, inLine]

/-- An ordinary character belongs to a literal. -/
theorem readQuoted_char {c : Char} (inLine : c ≠ '\n') (plain : c ≠ '\\') (inside : c ≠ quote)
    (t : Text) : readQuoted quote (c :: t) = (readQuoted quote t).push c := by
  cases t <;> simp [readQuoted, inLine, plain, inside, Reading.push]

/-- A literal ends with its line. -/
theorem readQuoted_lineEnds (other : quote ≠ '\n') {t : Text} (ends : LineEnds t) :
    readQuoted quote t = ⟨[], false, t⟩ := by
  rcases ends with rfl | ends
  · rfl
  · obtain ⟨rest, rfl⟩ := List.head?_eq_some_iff.mp ends
    cases rest <;> simp [readQuoted, other.symm]

/-- A closed literal is read whatever follows. -/
theorem readQuoted_append_of_closed (plain : quote ≠ '\\') (inLine : quote ≠ '\n') {body : Text}
    (closed : LiteralBody quote body true) (t : Text) :
    readQuoted quote (body ++ t) = ⟨body, true, t⟩ := by
  generalize flag : true = isClosed at closed
  induction closed with
  | close => exact readQuoted_quote plain inLine t
  | stop => cases flag
  | stopEscape => cases flag
  | escape line rest ih =>
    rw [List.cons_append, List.cons_append, readQuoted_escape line, ih flag]
    rfl
  | char line slash other rest ih =>
    rw [List.cons_append, readQuoted_char line slash other, ih flag]
    rfl

/-- An open literal is read at the end of a line. -/
theorem readQuoted_append_of_open (plain : quote ≠ '\\') (inLine : quote ≠ '\n') {body : Text}
    (opened : LiteralBody quote body false) {t : Text} (ends : LineEnds t) :
    readQuoted quote (body ++ t) = ⟨body, false, t⟩ := by
  generalize flag : false = isClosed at opened
  induction opened with
  | close => cases flag
  | stop => exact readQuoted_lineEnds inLine ends
  | stopEscape =>
    rcases ends with rfl | ends
    · simp [readQuoted, plain.symm]
    · obtain ⟨rest, rfl⟩ := List.head?_eq_some_iff.mp ends
      simp [readQuoted]
  | escape line rest ih =>
    rw [List.cons_append, List.cons_append, readQuoted_escape line, ih flag]
    rfl
  | char line slash other rest ih =>
    rw [List.cons_append, readQuoted_char line slash other, ih flag]
    rfl

/-- A literal is read if it is closed or the line ends. -/
theorem readQuoted_of_literalBody (plain : quote ≠ '\\') (inLine : quote ≠ '\n') {body t : Text}
    {closed : Bool} (grammar : LiteralBody quote body closed)
    (toLineEnd : closed = false → LineEnds t) :
    readQuoted quote (body ++ t) = ⟨body, closed, t⟩ := by
  cases closed with
  | true => exact readQuoted_append_of_closed plain inLine grammar t
  | false => exact readQuoted_append_of_open plain inLine grammar (toLineEnd rfl)

/-- No literal goes over the end of a line. -/
theorem LiteralBody.not_mem_lineFeed (inLine : quote ≠ '\n') {body : Text} {closed : Bool}
    (literal : LiteralBody quote body closed) : '\n' ∉ body := by
  induction literal with
  | close => simpa using inLine.symm
  | stop => simp
  | stopEscape => simp
  | escape line rest ih => simp [ih, line.symm]
  | char line slash other rest ih => simp [ih, line.symm]

end Text

/-! ### Quotes -/

/-- A quote is no backslash, line feed, slash or star. -/
theorem Region.ofQuote?_eq_some {c : Char} {kind : Region} (opens : Region.ofQuote? c = some kind) :
    c ≠ '\\' ∧ c ≠ '\n' ∧ c ≠ '/' ∧ kind ≠ .comment := by
  unfold Region.ofQuote? at opens
  split at opens
  · next quote =>
    cases opens
    subst quote
    decide
  · split at opens
    · next quote =>
      cases opens
      subst quote
      decide
    · cases opens

namespace Piece

/-! ### Well-formed pieces that fit -/

/-- A piece as the scanner forms it, whatever stands around it. -/
inductive WellFormed : Piece → Prop
  | code {c : Char} (plain : Region.ofQuote? c = none) : WellFormed (.code c)
  | line {body : Text} (inLine : '\n' ∉ body) :
      WellFormed (.region .comment ('/' :: '/' :: body) true)
  | block {body : Text} {closed : Bool} (grammar : Text.BlockBody body closed) :
      WellFormed (.region .comment ('/' :: '*' :: body) closed)
  | literal {quote : Char} {kind : Region} {body : Text} {closed : Bool}
      (opens : Region.ofQuote? quote = some kind) (grammar : Text.LiteralBody quote body closed) :
      WellFormed (.region kind (quote :: body) closed)

/-- Whether a piece is a comment. -/
def isComment : Piece → Bool
  | .region .comment _ _ => true
  | _ => false

/-- Whether a piece runs to the end of its line: a line comment, or a literal that nothing
closes. -/
def endsWithLine : Piece → Bool
  | .code _ => false
  | .region .comment body _ => body.startsWith ['/', '/']
  | .region _ _ closed => !closed

/-- Whether a piece runs to the end of the text: a comment that nothing closes. -/
def endsWithText : Piece → Bool
  | .region .comment _ closed => !closed
  | _ => false

/-- Whether a piece keeps its reading before a text. -/
structure Before (p : Piece) (t : Text) : Prop where
  slash : p = .code '/' → t.head? ≠ some '/' ∧ t.head? ≠ some '*'
  line : p.endsWithLine = true → t.LineEnds
  text : p.endsWithText = true → t = []

/-- Whether a piece may stand before another one. -/
structure Fits (p q : Piece) : Prop where
  slash : p = .code '/' → q ≠ .code '/' ∧ q ≠ .code '*' ∧ q.isComment = false
  line : p.endsWithLine = true → q = .code '\n'
  text : p.endsWithText = false

/-- A well-formed piece spells something. -/
theorem WellFormed.text_ne_nil {p : Piece} (formed : p.WellFormed) : p.text ≠ [] := by
  cases formed <;> exact List.cons_ne_nil _ _

/-- Every piece may stand at the end. -/
theorem before_nil (p : Piece) : p.Before [] :=
  ⟨fun _ => ⟨nofun, nofun⟩, fun _ => .inl rfl, fun _ => rfl⟩

/-- What a piece may stand before is decided by the next piece. -/
theorem fits_iff_before {p q : Piece} (formed : q.WellFormed) {t : Text} :
    p.Fits q ↔ p.Before (q.text ++ t) := by
  have nonempty : q.text ++ t ≠ [] := by simp [formed.text_ne_nil]
  have slash : q ≠ .code '/' ∧ q ≠ .code '*' ∧ q.isComment = false ↔
      (q.text ++ t).head? ≠ some '/' ∧ (q.text ++ t).head? ≠ some '*' := by
    cases formed with
    | code => simp [text, isComment]
    | line => simp [text, isComment]
    | block => simp [text, isComment]
    | @literal quote kind body closed opens =>
      obtain ⟨-, -, noSlash, noComment⟩ := Region.ofQuote?_eq_some opens
      have noStar : quote ≠ '*' := by
        rintro rfl
        cases opens
      cases kind <;> simp_all [text, isComment]
  have line : q = .code '\n' ↔ (q.text ++ t).LineEnds := by
    unfold Text.LineEnds
    rw [or_iff_right nonempty]
    cases formed with
    | code => simp [text]
    | line => simp [text]
    | block => simp [text]
    | literal opens => simp [text, (Region.ofQuote?_eq_some opens).2.1]
  constructor
  · intro fits
    exact ⟨fun same => slash.mp (fits.slash same), fun ends => line.mp (fits.line ends),
      fun ends => absurd (fits.text.symm.trans ends) (by simp)⟩
  · intro before
    refine ⟨fun same => slash.mpr (before.slash same), fun ends => line.mpr (before.line ends), ?_⟩
    by_contra ends
    exact nonempty (before.text (Bool.not_eq_false _ ▸ ends))

end Piece

/-- A list of pieces that is the reading of what it spells. -/
structure Scanned (ps : List Piece) : Prop where
  wellFormed : ∀ p ∈ ps, p.WellFormed
  fits : ps.IsChain Piece.Fits

namespace Text

/-! ### One step of the scanner -/

/-- The empty text has no pieces. -/
@[simp]
theorem pieces_nil : pieces [] = [] := by
  rw [pieces]

/-- A character that opens nothing is a piece of code. -/
theorem pieces_code {c : Char} {t : Text} (plain : Region.ofQuote? c = none)
    (slash : c = '/' → t.head? ≠ some '/' ∧ t.head? ≠ some '*') :
    pieces (c :: t) = .code c :: pieces t := by
  rw [pieces.eq_4]
  · simp only [plain]
  · rintro rest rfl rfl
    exact (slash rfl).1 rfl
  · rintro rest rfl rfl
    exact (slash rfl).2 rfl

/-- A quote opens a literal. -/
theorem pieces_literal {c : Char} {kind : Region} (opens : Region.ofQuote? c = some kind)
    (t : Text) :
    pieces (c :: t) = .region kind (c :: (readQuoted c t).body) (readQuoted c t).closed ::
      pieces (readQuoted c t).rest := by
  have noSlash := (Region.ofQuote?_eq_some opens).2.2.1
  rw [pieces.eq_4]
  · simp only [opens]
  · rintro rest rfl
    exact absurd rfl noSlash
  · rintro rest rfl
    exact absurd rfl noSlash

/-- A well-formed piece is read if what follows does not change it. -/
theorem pieces_text_append {p : Piece} {t : Text} (formed : p.WellFormed) (before : p.Before t) :
    pieces (p.text ++ t) = p :: pieces t := by
  obtain ⟨slash, line, text⟩ := before
  cases formed with
  | code plain => exact pieces_code plain (fun same => slash (by rw [same]))
  | @line body inLine =>
    have same : (body ++ t).takeWhile (· ≠ '\n') = body ∧ (body ++ t).dropWhile (· ≠ '\n') = t := by
      have whole : ∀ c ∈ body, decide (c ≠ '\n') = true := by
        intro c member
        exact decide_eq_true (fun same => inLine (same ▸ member))
      rw [List.takeWhile_append_of_pos whole, List.dropWhile_append_of_pos whole]
      rcases line rfl with rfl | ends
      · simp
      · obtain ⟨rest, rfl⟩ := List.head?_eq_some_iff.mp ends
        simp
    change pieces ('/' :: '/' :: (body ++ t)) = _
    rw [pieces.eq_2, same.1, same.2]
  | @block body closed grammar =>
    change pieces ('/' :: '*' :: (body ++ t)) = _
    have toEnd : closed = false → t = [] := by
      rintro rfl
      exact text rfl
    rw [pieces.eq_3, readBlock_of_blockBody grammar toEnd]
  | @literal quote kind body closed opens grammar =>
    obtain ⟨noBackslash, noLineFeed, -, noComment⟩ := Region.ofQuote?_eq_some opens
    have toLineEnd : closed = false → LineEnds t := by
      rintro rfl
      apply line
      cases kind with
      | comment => exact absurd rfl noComment
      | string => rfl
      | character => rfl
    change pieces (quote :: (body ++ t)) = _
    rw [pieces_literal opens, readQuoted_of_literalBody noBackslash noLineFeed grammar toLineEnd]

/-- A text that is not over is read as one piece and a rest. -/
theorem exists_pieces_eq_cons {t : Text} (nonempty : t ≠ []) :
    ∃ (p : Piece) (rest : Text), t = p.text ++ rest ∧ pieces t = p :: pieces rest ∧
      p.WellFormed ∧ p.Before rest := by
  fun_cases pieces t with
  | case1 => exact absurd rfl nonempty
  | case2 t =>
    refine ⟨.region .comment ('/' :: '/' :: t.takeWhile (· ≠ '\n')) true,
      t.dropWhile (· ≠ '\n'), ?_, rfl, .line ?_, by simp, fun _ => ?_,
      by simp [Piece.endsWithText]⟩
    · simp only [Piece.text, List.cons_append, List.takeWhile_append_dropWhile]
    · intro member
      simpa using List.mem_takeWhile_imp member
    · cases rest : t.dropWhile (· ≠ '\n') with
      | nil => exact .inl rfl
      | cons c rest' =>
        have stop := List.head?_dropWhile_not (· ≠ '\n') t
        rw [rest] at stop
        exact .inr (by simpa using stop)
  | case3 t reading =>
    obtain ⟨grammar, toEnd⟩ := blockBody_readBlock t
    refine ⟨.region .comment ('/' :: '*' :: reading.body) reading.closed, reading.rest, ?_, rfl,
      .block grammar, by simp, fun line => ?_,
      fun opened => toEnd (by simpa [Piece.endsWithText] using opened)⟩
    · simp [Piece.text, reading, readBlock_append]
    · simp [Piece.endsWithLine, startsWith] at line
  | case4 c t notLine notBlock plain =>
    refine ⟨.code c, t, rfl, rfl, .code plain, fun same => ?_, by simp [Piece.endsWithLine],
      by simp [Piece.endsWithText]⟩
    obtain rfl : c = '/' := by simpa using same
    constructor
    · intro head
      obtain ⟨rest, rfl⟩ := List.head?_eq_some_iff.mp head
      exact notLine rest rfl rfl
    · intro head
      obtain ⟨rest, rfl⟩ := List.head?_eq_some_iff.mp head
      exact notBlock rest rfl rfl
  | case5 c t notLine notBlock kind opens reading =>
    obtain ⟨grammar, toLineEnd⟩ : LiteralBody c reading.body reading.closed ∧
        (reading.closed = false → LineEnds reading.rest) := literalBody_readQuoted t
    have noComment := (Region.ofQuote?_eq_some opens).2.2.2
    refine ⟨.region kind (c :: reading.body) reading.closed, reading.rest, ?_, rfl,
      .literal opens grammar, by simp, fun opened => toLineEnd ?_, fun opened => ?_⟩
    · simp [Piece.text, reading, readQuoted_append]
    · cases kind <;> simp_all [Piece.endsWithLine, reading]
    · cases kind <;> simp_all [Piece.endsWithText]

/-- Pieces that are well formed and fit are read back from what they spell. -/
theorem pieces_spell {ps : List Piece} (scanned : Scanned ps) : pieces (spell ps) = ps := by
  induction ps with
  | nil => rw [spell_nil, pieces_nil]
  | cons p ps ih =>
    have formed := scanned.wellFormed p List.mem_cons_self
    have rest : Scanned ps :=
      ⟨fun q member => scanned.wellFormed q (List.mem_cons_of_mem _ member), scanned.fits.tail⟩
    have before : p.Before (spell ps) := by
      cases ps with
      | nil => exact p.before_nil
      | cons q qs =>
        exact (Piece.fits_iff_before (rest.wellFormed q List.mem_cons_self)).mp
          (scanned.fits.rel_head? rfl)
    rw [spell_cons, pieces_text_append formed before, ih rest]

/-- The pieces of a text are well formed and fit. -/
theorem scanned_pieces (t : Text) : Scanned t.pieces := by
  induction size : t.length using Nat.strong_induction_on generalizing t with
  | _ n ih =>
    by_cases nonempty : t = []
    · subst nonempty
      rw [pieces]
      exact ⟨by simp, .nil⟩
    · obtain ⟨p, rest, split, read, formed, before⟩ := exists_pieces_eq_cons nonempty
      have shorter : rest.length < n := by
        have positive := List.length_pos_iff.mpr formed.text_ne_nil
        have lengths := congrArg List.length split
        simp only [List.length_append] at lengths
        omega
      have scanned := ih rest.length shorter rest rfl
      rw [read]
      refine ⟨fun q member => ?_, scanned.fits.cons fun q head => ?_⟩
      · rcases List.mem_cons.mp member with rfl | later
        · exact formed
        · exact scanned.wellFormed q later
      · obtain ⟨qs, eq⟩ := List.head?_eq_some_iff.mp head
        have spelled := spell_pieces rest
        rw [eq, spell_cons] at spelled
        refine (Piece.fits_iff_before (t := spell qs) (scanned.wellFormed q ?_)).mpr ?_
        · rw [eq]
          exact List.mem_cons_self
        · rw [spelled]
          exact before

end Text

/-! ### Putting readings together -/

/-- Pieces are spelled one after the other. -/
@[simp]
theorem spell_append (ps qs : List Piece) : spell (ps ++ qs) = spell ps ++ spell qs :=
  List.flatMap_append

/-- Characters that open nothing spell themselves. -/
@[simp]
theorem spell_map_code (t : Text) : spell (t.map .code) = t := by
  induction t with
  | nil => rfl
  | cons c t ih => rw [List.map_cons, spell_cons, ih]; rfl

namespace Scanned

/-- No pieces are the reading of the empty text. -/
theorem nil : Scanned [] :=
  ⟨nofun, .nil⟩

/-- A part of a reading is a reading. -/
theorem part {ps qs : List Piece} (scanned : Scanned qs) (part : ps <:+: qs) : Scanned ps := by
  refine ⟨fun p member => scanned.wellFormed p (part.subset member), ?_⟩
  obtain ⟨before, after, rfl⟩ := part
  exact scanned.fits.left_of_append.right_of_append

/-- Two readings make one if they fit where they meet. -/
theorem append {ps qs : List Piece} (left : Scanned ps) (right : Scanned qs)
    (meet : ∀ p ∈ ps.getLast?, ∀ q ∈ qs.head?, p.Fits q) : Scanned (ps ++ qs) := by
  refine ⟨fun p member => ?_, left.fits.append right.fits meet⟩
  rcases List.mem_append.mp member with inLeft | inRight
  · exact left.wellFormed p inLeft
  · exact right.wellFormed p inRight

/-- A well-formed piece and a reading that it fits make a reading. -/
theorem cons {p : Piece} {ps : List Piece} (formed : p.WellFormed) (scanned : Scanned ps)
    (meet : ∀ q ∈ ps.head?, p.Fits q) : Scanned (p :: ps) :=
  ⟨List.forall_mem_cons.mpr ⟨formed, scanned.wellFormed⟩, scanned.fits.cons meet⟩

/-- What follows the first piece of a reading is a reading. -/
theorem tail {p : Piece} {ps : List Piece} (scanned : Scanned (p :: ps)) : Scanned ps :=
  scanned.part (List.suffix_cons p ps).isInfix

end Scanned

namespace Piece

/-- Whether a piece ends by itself: it is no line comment, and nothing is missing at its end. -/
def isWhole (p : Piece) : Bool :=
  !p.endsWithLine && !p.endsWithText

/-- Whether a piece may stand before any other one. -/
def isBounded (p : Piece) : Bool :=
  p ≠ .code '/' && p.isWhole

/-- A piece is whole if neither a line nor the text ends it. -/
theorem isWhole_iff {p : Piece} :
    p.isWhole = true ↔ p.endsWithLine = false ∧ p.endsWithText = false := by
  simp [isWhole]

/-- A bounded piece fits before every piece. -/
theorem fits_of_isBounded {p : Piece} (bounded : p.isBounded = true) (q : Piece) : p.Fits q := by
  simp only [isBounded, Bool.and_eq_true, decide_eq_true_eq, isWhole_iff] at bounded
  obtain ⟨noSlash, noLine, noText⟩ := bounded
  exact ⟨fun same => absurd same noSlash, fun ends => absurd (noLine.symm.trans ends) nofun, noText⟩

/-- What fits before a comment fits before every piece. -/
theorem Fits.isBounded_of_comment {p q : Piece} (fits : p.Fits q) (comment : q.isComment = true) :
    p.isBounded = true := by
  have noSlash : p ≠ .code '/' := by
    intro same
    exact absurd ((fits.slash same).2.2.symm.trans comment) nofun
  have noLine : p.endsWithLine = false := by
    by_contra ends
    rw [fits.line (Bool.not_eq_false _ ▸ ends)] at comment
    cases comment
  simp [isBounded, isWhole, noSlash, noLine, fits.text]

end Piece

namespace Text

/-- The pieces of two texts that do not run into each other. -/
theorem pieces_append {s t : Text} (meet : ∀ p ∈ s.pieces.getLast?, p.Before t) :
    pieces (s ++ t) = s.pieces ++ t.pieces := by
  have scanned : Scanned (s.pieces ++ t.pieces) := by
    refine (scanned_pieces s).append (scanned_pieces t) fun p last q head => ?_
    obtain ⟨qs, eq⟩ := List.head?_eq_some_iff.mp head
    have formed := (scanned_pieces t).wellFormed q (by rw [eq]; exact List.mem_cons_self)
    have spelled := spell_pieces t
    rw [eq, spell_cons] at spelled
    refine (Piece.fits_iff_before (t := spell qs) formed).mpr ?_
    rw [spelled]
    exact meet p last
  have read := pieces_spell scanned
  rwa [spell_append, spell_pieces, spell_pieces] at read

/-- The pieces of a text in front of a new line. -/
theorem pieces_append_lineFeed {s : Text} (ends : ∀ p ∈ s.pieces, p.endsWithText = false)
    (t : Text) : pieces (s ++ '\n' :: t) = s.pieces ++ .code '\n' :: t.pieces := by
  rw [pieces_append, pieces_code (by decide) (fun same => absurd same (by decide))]
  intro p last
  refine ⟨fun _ => ⟨nofun, nofun⟩, fun _ => .inr rfl, fun toEnd => ?_⟩
  exact absurd ((ends p (List.mem_of_getLast? last)).symm.trans toEnd) nofun

/-- Whether a character belongs to code whatever stands around it. -/
def isPlain (c : Char) : Bool :=
  Region.ofQuote? c = none && c ≠ '/'

/-- The pieces of a text after plain characters. -/
theorem pieces_plain_append {s : Text} (plain : ∀ c ∈ s, isPlain c = true) (t : Text) :
    pieces (s ++ t) = s.map .code ++ t.pieces := by
  induction s with
  | nil => rfl
  | cons c s ih =>
    have first := plain c List.mem_cons_self
    simp only [isPlain, Bool.and_eq_true, decide_eq_true_eq] at first
    rw [List.cons_append, pieces_code first.1 (fun same => absurd same first.2),
      ih (fun d member => plain d (List.mem_cons_of_mem c member))]
    rfl

/-- The pieces of a plain text. -/
theorem pieces_plain {s : Text} (plain : ∀ c ∈ s, isPlain c = true) :
    pieces s = s.map .code := by
  simpa using pieces_plain_append plain []

end Text

/-- Plain characters are read as code. -/
theorem Scanned.map_code {s : Text} (plain : ∀ c ∈ s, Text.isPlain c = true) :
    Scanned (s.map .code) := by
  rw [← Text.pieces_plain plain]
  exact Text.scanned_pieces s

/-- Readings can be put together behind a piece that may stand before any other. -/
theorem Scanned.append_of_isBounded {ps qs : List Piece} (left : Scanned ps)
    (bounded : ∀ p ∈ ps.getLast?, p.isBounded = true) (right : Scanned qs) : Scanned (ps ++ qs) :=
  left.append right fun p last q _ => Piece.fits_of_isBounded (bounded p last) q

/-- Readings whose last pieces end by themselves can stand in a row. -/
theorem Scanned.flatMap {α : Type} {read : α → List Piece} {items : List α}
    (each : ∀ item ∈ items, Scanned (read item))
    (bounded : ∀ item ∈ items, ∀ p ∈ (read item).getLast?, p.isBounded = true) :
    Scanned (items.flatMap read) ∧ ∀ p ∈ (items.flatMap read).getLast?, p.isBounded = true := by
  induction items with
  | nil => exact ⟨.nil, nofun⟩
  | cons item items ih =>
    have first := bounded item List.mem_cons_self
    obtain ⟨scanned, last⟩ := ih (fun item later => each item (List.mem_cons_of_mem _ later))
      fun item later => bounded item (List.mem_cons_of_mem _ later)
    rw [List.flatMap_cons]
    refine ⟨(each item List.mem_cons_self).append_of_isBounded first scanned, ?_⟩
    intro p ends
    rw [List.getLast?_append, Option.mem_def, Option.or_eq_some_iff] at ends
    rcases ends with ends | ⟨-, ends⟩
    · exact last p ends
    · exact first p ends

/-! ### Taking comments out -/

/-- What is left of a piece without comments. -/
def Piece.stripped : Piece → List Piece
  | .region .comment body _ => (body.filter (· = '\n')).map .code
  | p => [p]

/-- What is left of a piece is spelled by what is left of its text. -/
theorem spell_stripped (p : Piece) : spell p.stripped = p.withoutComment := by
  rcases p with c | ⟨kind, body, closed⟩
  · rfl
  · cases kind
    · exact spell_map_code _
    · exact List.append_nil _
    · exact List.append_nil _

/-- What is left of a piece holds no comment. -/
theorem isComment_of_mem_stripped {p q : Piece} (member : q ∈ p.stripped) :
    q.isComment = false := by
  rcases p with c | ⟨kind, body, closed⟩
  · rw [List.mem_singleton.mp member]; rfl
  · cases kind with
    | comment =>
      obtain ⟨c, -, rfl⟩ := List.mem_map.mp member
      rfl
    | string => rw [List.mem_singleton.mp member]; rfl
    | character => rw [List.mem_singleton.mp member]; rfl

/-- A literal is no comment. -/
theorem isComment_literal {kind : Region} (literal : kind ≠ .comment) (body : Text)
    (closed : Bool) : (Piece.region kind body closed).isComment = false := by
  cases kind with
  | comment => exact absurd rfl literal
  | string => rfl
  | character => rfl

/-- A piece that is no comment stays. -/
theorem stripped_of_not_comment {p : Piece} (noComment : p.isComment = false) :
    p.stripped = [p] := by
  rcases p with c | ⟨kind, body, closed⟩
  · rfl
  · cases kind
    · cases noComment
    · rfl
    · rfl

/-- Line feeds make a reading before any other. -/
theorem Scanned.lineFeeds_append {feeds : Text} (only : ∀ c ∈ feeds, c = '\n') {ps : List Piece}
    (scanned : Scanned ps) : Scanned (feeds.map .code ++ ps) := by
  induction feeds with
  | nil => exact scanned
  | cons c feeds ih =>
    obtain rfl := only c List.mem_cons_self
    refine Scanned.cons (.code (by decide))
      (ih fun d member => only d (List.mem_cons_of_mem _ member)) fun q _ =>
        Piece.fits_of_isBounded (by decide) q

/-- Taking the comments out of a reading gives a reading: a comment stands only after pieces that
fit before anything. -/
theorem Scanned.flatMap_stripped {ps : List Piece} (scanned : Scanned ps) :
    Scanned (ps.flatMap Piece.stripped) := by
  induction ps with
  | nil => exact Scanned.nil
  | cons p ps ih =>
    have rest := ih scanned.tail
    rw [List.flatMap_cons]
    cases comment : p.isComment with
    | false =>
      rw [stripped_of_not_comment comment]
      refine Scanned.cons (scanned.wellFormed p List.mem_cons_self) rest fun r head => ?_
      cases ps with
      | nil => cases head
      | cons q qs =>
        have fits : p.Fits q := scanned.fits.rel_head? rfl
        cases next : q.isComment with
        | true => exact Piece.fits_of_isBounded (fits.isBounded_of_comment next) r
        | false =>
          rw [List.flatMap_cons, stripped_of_not_comment next] at head
          cases head
          exact fits
    | true =>
      rcases p with c | ⟨kind, body, closed⟩
      · cases comment
      · cases kind
        · exact Scanned.lineFeeds_append (by simp) rest
        · cases comment
        · cases comment

namespace Text

/-- The pieces of a text without its comments. -/
theorem pieces_withoutComments (t : Text) :
    t.withoutComments.pieces = t.pieces.flatMap Piece.stripped := by
  have spelled : spell (t.pieces.flatMap Piece.stripped) = t.withoutComments := by
    simp only [spell, withoutComments, List.flatMap_assoc]
    exact List.flatMap_congr fun p _ => spell_stripped p
  rw [← spelled]
  exact pieces_spell (scanned_pieces t).flatMap_stripped

/-- Whether a text has no comments. -/
def CommentFree (t : Text) : Prop :=
  ∀ p ∈ t.pieces, p.isComment = false

/-- A text without its comments has none. -/
theorem CommentFree.withoutComments_eq {t : Text} (free : t.CommentFree) :
    t.withoutComments = t := by
  have same : ∀ p ∈ t.pieces, p.withoutComment = p.text := by
    intro p member
    rw [← spell_stripped, stripped_of_not_comment (free p member), spell_cons, spell_nil,
      List.append_nil]
  rw [withoutComments, List.flatMap_congr same]
  exact spell_pieces t

/-- A text without its comments has none. -/
theorem commentFree_withoutComments (t : Text) : t.withoutComments.CommentFree := by
  intro p member
  rw [pieces_withoutComments] at member
  obtain ⟨q, -, left⟩ := List.mem_flatMap.mp member
  exact isComment_of_mem_stripped left

/-- Pieces that stand next to each other in a text are read alone as they are there. -/
theorem pieces_spell_part {t : Text} {ps : List Piece} (part : ps <:+: t.pieces) :
    pieces (spell ps) = ps :=
  pieces_spell ((scanned_pieces t).part part)

end Text

end ScriptLoom
