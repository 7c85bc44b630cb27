import ScriptLoom.Proofs.ByteSearches
import ScriptLoom.Proofs.SpanLookup

/-! # The struct keyword by byte offset

A struct keyword is the first thing on its line. By offset it is looked for behind the blanks at the
start of each line, and not inside a comment or literal; among pieces, in one pass. Both find the
same place (`Record.keywordAt?_eq`).
-/

namespace ScriptLoom

namespace Text

/-! ### The first visible character of each line -/

/-- The blanks at the start of the first line of a text. -/
def leading (t : Text) : Text :=
  (t.takeWhile (· ≠ '\n')).takeWhile isBlank

/-- The offset behind the blanks at the start of a line. -/
def bodyOffset (t : Text) (start : Nat) : Nat :=
  let line := t.slice start (t.lineRange start).2
  start + (size line - size line.trimStart)

private theorem slice_lineRange_snd (before tail : Text) :
    slice (before ++ tail) (size before) (lineRange (before ++ tail) (size before)).2 =
      tail.takeWhile (· ≠ '\n') := by
  have cut := slice_append before (tail.takeWhile (· ≠ '\n')) (tail.dropWhile (· ≠ '\n'))
  rw [List.takeWhile_append_dropWhile] at cut
  rwa [lineRange_snd_append]

/-- The body of a line starts behind its leading blanks. -/
theorem StartsLineAt.bodyOffset_eq {t tail : Text} {start : Nat}
    (line : t.StartsLineAt start tail) :
    t.bodyOffset start = start + size (leading tail) := by
  obtain ⟨before, rfl, rfl, -⟩ := line
  have parts := congrArg size
    (List.takeWhile_append_dropWhile (p := isBlank) (l := tail.takeWhile (· ≠ '\n')))
  rw [size_append] at parts
  rw [bodyOffset, slice_lineRange_snd, leading, trimStart]
  omega

/-- The offsets behind the blanks at the start of each line. -/
def bodyOffsets (t : Text) : List Nat :=
  t.lineOffsets.map t.bodyOffset

/-- The same offsets for a text that stands behind a place, the one of its first line only if
nothing visible stands before the place on its line. -/
def bodiesFrom (atStart : Bool) (start : Nat) (t : Text) : List Nat :=
  (if atStart then [start + size (leading t)] else [])
    ++ List.zipWith (fun i tail => start + i + 1 + size (leading tail)) t.lineFeeds t.afterLineFeeds

private theorem bodyOffsets_eq (t : Text) : t.bodyOffsets = bodiesFrom true 0 t := by
  have each : ∀ {starts : List Nat} {tails : List Text},
      List.Forall₂ (StartsLineAt t) starts tails → starts.map t.bodyOffset =
        List.zipWith (fun i tail => i + size (leading tail)) starts tails := by
    intro starts tails lines
    induction lines with
    | nil => rfl
    | cons line _ ih => rw [List.map_cons, List.zipWith_cons_cons, ih, line.bodyOffset_eq]
  rw [bodyOffsets, each (forall₂_lineTails t), lineOffsets, lineTails, List.zipWith_cons_cons,
    List.zipWith_map_left]
  simp [bodiesFrom]

section Step

variable (start : Nat) (t : Text)

private theorem bodiesFrom_lineFeed (atStart : Bool) :
    bodiesFrom atStart start ('\n' :: t) =
      (if atStart then [start] else []) ++ bodiesFrom true (start + 1) t := by
  have shifted : List.zipWith (fun i tail => start + i + 1 + size (leading tail))
      ((lineFeeds t).map ('\n'.utf8Size + ·)) t.afterLineFeeds =
      List.zipWith (fun i tail => start + 1 + i + 1 + size (leading tail)) t.lineFeeds
        t.afterLineFeeds := by
    rw [List.zipWith_map_left]
    simp only [show '\n'.utf8Size = 1 from rfl, Nat.add_assoc]
  rw [bodiesFrom, lineFeeds_cons, afterLineFeeds, if_pos rfl, if_pos rfl, List.singleton_append,
    List.zipWith_cons_cons, shifted]
  rfl

variable {c : Char}

private theorem zipWith_lineFeeds_cons (inLine : c ≠ '\n') :
    List.zipWith (fun i tail => start + i + 1 + size (leading tail)) (lineFeeds (c :: t))
        (afterLineFeeds (c :: t)) =
      List.zipWith (fun i tail => start + c.utf8Size + i + 1 + size (leading tail)) t.lineFeeds
        t.afterLineFeeds := by
  rw [lineFeeds_cons, afterLineFeeds, if_neg inLine, if_neg inLine, List.nil_append,
    List.zipWith_map_left]
  simp only [Nat.add_assoc]

private theorem bodiesFrom_false_cons (inLine : c ≠ '\n') :
    bodiesFrom false start (c :: t) = bodiesFrom false (start + c.utf8Size) t := by
  rw [bodiesFrom, bodiesFrom, zipWith_lineFeeds_cons start t inLine]
  rfl

private theorem bodiesFrom_blank (inLine : c ≠ '\n') (blank : isBlank c = true) :
    bodiesFrom true start (c :: t) = bodiesFrom true (start + c.utf8Size) t := by
  have more : leading (c :: t) = c :: leading t := by
    rw [leading, List.takeWhile_cons_of_pos (by simpa using inLine),
      List.takeWhile_cons_of_pos blank]
    rfl
  rw [bodiesFrom, bodiesFrom, zipWith_lineFeeds_cons start t inLine, more, size_cons, Nat.add_assoc]

private theorem bodiesFrom_visible (visible : isBlank c = false) :
    bodiesFrom true start (c :: t) = start :: bodiesFrom false (start + c.utf8Size) t := by
  have inLine : c ≠ '\n' := by
    rintro rfl
    cases visible
  have none : leading (c :: t) = [] := by
    rw [leading, List.takeWhile_cons_of_pos (by simpa using inLine),
      List.takeWhile_cons_of_neg (by simp [visible])]
  rw [bodiesFrom, bodiesFrom, zipWith_lineFeeds_cons start t inLine, none]
  rfl

end Step

/-- Whether a search among the bodies of lines is behind the first one of a line at the end of a
part: the part stands on one line, behind or with a visible character, or it ends in one, or nothing
follows. -/
def Settles (found : Nat → Bool) (atStart : Bool) (start : Nat) (s t : Text) : Prop :=
  (atStart = true → ∃ c ∈ s.head?, isBlank c = false) ∧ '\n' ∉ s ∨
    (∃ c ∈ s.getLast?, isBlank c = false) ∨ t = [] ∧ found (start + size s) = false

private theorem Settles.of_cons {found : Nat → Bool} {atStart atStart' : Bool} {start : Nat}
    {c : Char} {s t : Text} (settles : Settles found atStart start (c :: s) t)
    (kept : atStart = false → c ≠ '\n' → atStart' = false)
    (seen : isBlank c = false → atStart' = false) :
    Settles found atStart' (start + c.utf8Size) s t := by
  rcases settles with ⟨first, inLine⟩ | ⟨d, last, visible⟩ | ⟨ends, missed⟩
  · rw [List.mem_cons, not_or] at inLine
    have passed : atStart' = false := by
      cases atStart with
      | false => exact kept rfl (Ne.symm inLine.1)
      | true =>
        obtain ⟨d, same, visible⟩ := first rfl
        obtain rfl : c = d := by simpa using same
        exact seen visible
    exact .inl ⟨fun atLine => absurd (passed.symm.trans atLine) (by decide), inLine.2⟩
  · cases s with
    | nil =>
      obtain rfl : c = d := by simpa using last
      exact .inl ⟨fun atLine => absurd ((seen visible).symm.trans atLine) (by decide),
        List.not_mem_nil⟩
    | cons e s => exact .inr (.inl ⟨d, by simpa using last, visible⟩)
  · exact .inr (.inr ⟨ends, by rwa [Nat.add_assoc]⟩)

/-- A search among the bodies of lines passes over a part that it finds nothing in. -/
theorem find?_bodiesFrom_append {found : Nat → Bool} {atStart : Bool} {start : Nat} {s t : Text}
    (misses : ∀ i, start ≤ i → i < start + size s → found i = false)
    (settles : Settles found atStart start s t) :
    (bodiesFrom atStart start (s ++ t)).find? found =
      (bodiesFrom false (start + size s) t).find? found := by
  induction s generalizing atStart start with
  | nil =>
    rcases settles with ⟨first, -⟩ | ⟨c, last, -⟩ | ⟨rfl, missed⟩
    · cases atStart with
      | false => rfl
      | true =>
        obtain ⟨c, none, -⟩ := first rfl
        cases none
    · cases last
    · have missed' : found start = false := missed
      cases atStart with
      | false => rfl
      | true => simp [bodiesFrom, leading, lineFeeds, indexed, indexedFrom, missed']
  | cons c s ih =>
    have positive := c.utf8Size_pos
    have missed : found start = false := misses start (Nat.le_refl _) (by rw [size_cons]; omega)
    have later : ∀ i, start + c.utf8Size ≤ i → i < start + c.utf8Size + size s → found i = false :=
      fun i low high => misses i (by omega) (by rw [size_cons]; omega)
    rw [List.cons_append, size_cons, ← Nat.add_assoc]
    by_cases feed : c = '\n'
    · subst feed
      rw [bodiesFrom_lineFeed, List.find?_append,
        List.find?_eq_none.mpr (by cases atStart <;> simp [missed]), Option.none_or]
      exact ih later (settles.of_cons (fun _ inLine => absurd rfl inLine)
        fun visible => absurd visible (by decide))
    · cases atStart with
      | false =>
        rw [bodiesFrom_false_cons start _ feed]
        exact ih later (settles.of_cons (fun _ _ => rfl) fun _ => rfl)
      | true =>
        cases visible : isBlank c with
        | true =>
          rw [bodiesFrom_blank start _ feed visible]
          refine ih later
            (settles.of_cons (fun passed => absurd passed (by decide)) fun visible' => ?_)
          rw [visible] at visible'
          cases visible'
        | false =>
          rw [bodiesFrom_visible start _ visible, List.find?_cons_of_neg (by simp [missed])]
          exact ih later (settles.of_cons (fun _ _ => rfl) fun _ => rfl)

end Text

/-! ### The keyword -/

/-- No span holds a character of the code. -/
theorem isNone_spanHolding?_of_code {t : Text} {before after : List Piece} {c : Char}
    (split : t.pieces = before ++ .code c :: after) :
    (t.spanHolding? (Text.size (spell before))).isNone = true := by
  rw [← Option.not_isSome]
  exact congrArg (!·) (Text.isIgnored_of_code split)

private theorem isNone_spanHolding?_of_region {t : Text} {before after : List Piece} {kind : Region}
    {body : Text} {closed : Bool} (split : t.pieces = before ++ .region kind body closed :: after)
    {i : Nat} (low : Text.size (spell before) ≤ i)
    (high : i < Text.size (spell before) + Text.size body) :
    (t.spanHolding? i).isNone = false := by
  rw [← Option.not_isSome]
  exact congrArg (!·) (Text.isIgnored_of_region split low high)

namespace Record

open Text

/-- Whether a struct keyword stands at an offset, outside comments and literals. -/
def isKeywordAt (t : Text) (i : Nat) : Bool :=
  (t.dropBytes i).startsWith Keyword.record && (t.spanHolding? i).isNone

/-- The offset of the first struct keyword that starts a line. -/
def keywordAt? (t : Text) : Option Nat :=
  t.bodyOffsets.find? (isKeywordAt t)

private theorem isSome_dropWord? {word : Text} {ps : List Piece} (formed : ∀ p ∈ ps, p.WellFormed)
    (plain : ∀ c ∈ word, Region.ofQuote? c = none ∧ c ≠ '/') :
    (dropWord? word ps).isSome = (spell ps).startsWith word := by
  induction word generalizing ps with
  | nil => rfl
  | cons c word ih =>
    obtain ⟨noQuote, noSlash⟩ := plain c List.mem_cons_self
    have head := head?_spell_eq_some_iff formed noQuote noSlash
    cases ps with
    | nil => rfl
    | cons p ps =>
      rw [dropWord?]
      by_cases same : p = .code c
      · subst same
        rw [if_pos rfl, ih (fun q member => formed q (List.mem_cons_of_mem _ member))
          fun d member => plain d (List.mem_cons_of_mem _ member)]
        simp [startsWith, Piece.text]
      · rw [if_neg same]
        refine (Bool.eq_false_iff.mpr fun starts => same ?_).symm
        obtain ⟨rest, whole⟩ := List.isPrefixOf_iff_prefix.mp starts
        have first : (spell (p :: ps)).head? = some c := by
          rw [← whole]
          rfl
        exact Option.some_inj.mp (head.mp first)

/-- A keyword is found where the text goes on with it outside all spans. -/
theorem isKeywordAt_size {t : Text} {before after : List Piece}
    (split : t.pieces = before ++ after) :
    isKeywordAt t (size (spell before)) =
      ((spell after).startsWith Keyword.record &&
        (t.spanHolding? (size (spell before))).isNone) := by
  have whole : t = spell before ++ spell after := by rw [← spell_append, ← split, spell_pieces]
  rw [isKeywordAt]
  congr 2
  rw [whole, dropBytes_append]

/-- A region settles the search for a keyword: none is inside, and no line starts in a region and
goes on with code before anything visible. -/
theorem settles_region {t : Text} {before after : List Piece} {kind : Region} {body : Text}
    {closed : Bool} (split : t.pieces = before ++ .region kind body closed :: after)
    (atStart : Bool) :
    Settles (isKeywordAt t) atStart (size (spell before)) body (spell after) := by
  have scanned := scanned_pieces t
  rw [split] at scanned
  have formed := scanned.wellFormed _ (List.mem_append_right _ List.mem_cons_self)
  have onLine := formed.not_mem_lineFeed
  have split' : t.pieces = (before ++ [.region kind body closed]) ++ after := by
    rw [split, List.append_assoc]
    rfl
  cases formed with
  | line inLine => exact .inl ⟨fun _ => ⟨'/', rfl, rfl⟩, by simpa using inLine⟩
  | @block body _ grammar =>
    cases closed with
    | true =>
      have last : ('/' :: '*' :: body).getLast? = some '/' := by
        rw [List.getLast?_cons, List.getLast?_cons, grammar.getLast?_of_closed]
        rfl
      exact .inr (.inl ⟨'/', last, rfl⟩)
    | false =>
      obtain rfl : after = [] := by
        cases after with
        | nil => rfl
        | cons q after =>
          have chain := (scanned.part (List.suffix_append before _).isInfix).fits
          have whole := (List.isChain_cons_cons.mp chain).1.text
          cases whole
      refine .inr (.inr ⟨rfl, ?_⟩)
      have missed : isKeywordAt t (size (spell (before ++ [_]))) = false := isKeywordAt_size split'
      simpa [Piece.text] using missed
  | @literal quote _ body _ opens grammar =>
    refine .inl ⟨fun _ => ⟨quote, rfl, Region.isBlank_of_ofQuote? opens⟩, ?_⟩
    exact onLine (isComment_literal (Region.ofQuote?_eq_some opens).2.2.2 _ _) (by simp)

private theorem map_size_push (before : List Piece) (p : Piece)
    (found : Option (Text × List Piece)) :
    (found.map fun parts => (p.text ++ parts.1, parts.2)).map
        (fun parts => size (spell before) + size parts.1) =
      found.map fun parts => size (spell (before ++ [p])) + size parts.1 := by
  rw [Option.map_map]
  congr 1
  funext parts
  simp [Nat.add_assoc]

private theorem isKeywordAt_code {t : Text} {before after : List Piece} {c : Char}
    (split : t.pieces = before ++ .code c :: after) :
    isKeywordAt t (size (spell before)) = (dropWord? Keyword.record (.code c :: after)).isSome := by
  have scanned := scanned_pieces t
  rw [split] at scanned
  have formed := (scanned.part (List.suffix_append before _).isInfix).wellFormed
  rw [isKeywordAt_size split, isNone_spanHolding?_of_code split, Bool.and_true,
    isSome_dropWord? formed (by decide)]

private theorem find?_bodiesFrom_spell {t : Text} {before ps : List Piece}
    (split : t.pieces = before ++ ps) (atStart : Bool) :
    (bodiesFrom atStart (size (spell before)) (spell ps)).find? (isKeywordAt t) =
      (findKeyword? atStart ps).map fun found => size (spell before) + size found.1 := by
  induction ps generalizing before atStart with
  | nil =>
    have missed : isKeywordAt t (size (spell before)) = false := isKeywordAt_size split
    cases atStart with
    | false => rfl
    | true => exact List.find?_cons_of_neg (by simpa [leading] using missed)
  | cons p ps ih =>
    have later : ∀ atStart : Bool,
        (bodiesFrom atStart (size (spell before) + size p.text) (spell ps)).find? (isKeywordAt t) =
          ((findKeyword? atStart ps).map fun found => (p.text ++ found.1, found.2)).map
            fun found => size (spell before) + size found.1 := by
      intro atStart
      rw [map_size_push, ← ih (by rw [split, List.append_assoc]; rfl)]
      simp
    cases p with
    | code c =>
      have keyword := isKeywordAt_code split
      rw [spell_cons, Piece.text, List.singleton_append, findKeyword?]
      by_cases feed : c = '\n'
      · subst feed
        have missed : isKeywordAt t (size (spell before)) = false := keyword
        rw [bodiesFrom_lineFeed, List.find?_append,
          List.find?_eq_none.mpr (by cases atStart <;> simp [missed]), Option.none_or,
          if_neg (by rw [show isBlank '\n' = true from rfl]; simp),
          decide_eq_true (rfl : '\n' = '\n'), Bool.or_true]
        exact later true
      · rw [decide_eq_false feed, Bool.or_false]
        cases atStart with
        | false =>
          rw [bodiesFrom_false_cons _ _ feed]
          exact later false
        | true =>
          cases blank : isBlank c with
          | true =>
            rw [bodiesFrom_blank _ _ feed blank]
            exact later true
          | false =>
            rw [bodiesFrom_visible _ _ blank, List.find?_cons, keyword]
            cases dropWord? Keyword.record (.code c :: ps) with
            | some after => rfl
            | none => exact later false
    | region kind body closed =>
      have misses : ∀ i, size (spell before) ≤ i → i < size (spell before) + size body →
          isKeywordAt t i = false := by
        intro i low high
        rw [isKeywordAt, isNone_spanHolding?_of_region split low high, Bool.and_false]
      rw [spell_cons, Piece.text, find?_bodiesFrom_append misses (settles_region split atStart)]
      exact later false

/-- The first struct keyword by offset is the one among the pieces. -/
theorem keywordAt?_eq (t : Text) :
    keywordAt? t = (findKeyword? true t.pieces).map fun found => size found.1 := by
  have found := find?_bodiesFrom_spell (show t.pieces = [] ++ t.pieces from rfl) true
  rw [spell_pieces] at found
  rw [keywordAt?, bodyOffsets_eq]
  simpa using found

end Record

end ScriptLoom
