import ScriptLoom.Verification
import ScriptLoom.Proofs.Boundaries
import ScriptLoom.Proofs.LibraryComments
import ScriptLoom.Proofs.ProblemLines
import ScriptLoom.Proofs.RecordBraces

/-! # Searches by byte offset

The passes look for brackets, calls, operators and keywords among the pieces of a text. Here the
same searches go by byte offset, from line starts, spans and single bytes, and each is shown to end
at the place that the search among pieces finds.
-/

namespace ScriptLoom

/-- A plain character at the front of what pieces spell is a piece of code. -/
theorem head?_spell_eq_some_iff {ps : List Piece} (formed : ∀ p ∈ ps, p.WellFormed) {c : Char}
    (plain : Region.ofQuote? c = none) (noSlash : c ≠ '/') :
    (spell ps).head? = some c ↔ ps.head? = some (.code c) := by
  cases ps with
  | nil => simp
  | cons p ps =>
    cases formed p List.mem_cons_self with
    | code => simp [Piece.text]
    | line => simpa [Piece.text] using noSlash.symm
    | block => simpa [Piece.text] using noSlash.symm
    | literal opens =>
      simp only [spell_cons, Piece.text, List.cons_append, List.head?_cons, Option.some_inj]
      constructor
      · rintro rfl
        rw [plain] at opens
        cases opens
      · intro same
        cases same

/-! ### Brackets -/

private theorem map_add_size_cons (start : Nat) (p : Piece)
    (found : Option (List Piece × List Piece)) :
    (found.map fun parts => (p :: parts.1, parts.2)).map
        (fun parts => start + Text.size (spell parts.1)) =
      found.map fun parts => start + Text.size p.text + Text.size (spell parts.1) := by
  rw [Option.map_map]
  congr 1
  funext parts
  simp [Nat.add_assoc]

/-- A closing bracket is found at the place behind what it closes. -/
theorem matchFrom_codeFrom {opening closing : Char} {depth : Nat} {ps : List Piece} (start : Nat) :
    matchFrom opening closing (depth + 1) (codeFrom start ps) =
      (splitAtClose? opening closing depth ps).map fun parts =>
        start + Text.size (spell parts.1) := by
  fun_induction splitAtClose? opening closing depth ps generalizing start with
  | case1 => rfl
  | case2 depth ps ih =>
    simp only [codeFrom, matchFrom, if_true]
    rw [ih, map_add_size_cons]
    rfl
  | case3 ps differ =>
    rw [codeFrom, matchFrom, if_neg differ, if_pos rfl]
    rfl
  | case4 ps depth differ ih =>
    rw [codeFrom, matchFrom, if_neg differ, if_pos rfl, map_add_size_cons]
    exact ih _
  | case5 depth c ps notOpening notClosing ih =>
    simp only [codeFrom, matchFrom, if_neg notOpening, if_neg notClosing]
    rw [ih, map_add_size_cons]
    rfl
  | case6 depth p ps notCode ih =>
    rw [map_add_size_cons]
    cases p with
    | code c => exact absurd rfl (notCode c)
    | region kind body closed => exact ih _

/-- A code character is found at the place behind the pieces before it. -/
theorem find?_codeFrom (c : Char) (ps : List Piece) {bound start : Nat} (reached : bound ≤ start) :
    ((codeFrom start ps).find? fun place => bound ≤ place.1 && place.2 = c).map (·.1) =
      (splitAtCode? c ps).map fun parts => start + Text.size (spell parts.1) := by
  induction ps generalizing start with
  | nil => rfl
  | cons p ps ih =>
    rw [splitAtCode?]
    cases p with
    | code d =>
      by_cases same : d = c
      · simp [codeFrom, same, reached]
      · rw [if_neg (by simpa using same), codeFrom, List.find?_cons_of_neg (by simp [same]),
          ih (by omega), map_add_size_cons]
        rfl
    | region kind body closed =>
      rw [if_neg (by simp), codeFrom, ih (by omega), map_add_size_cons]
      rfl

namespace Text

variable {t : Text} {before after : List Piece}

private theorem findCode?_eq (split : t.pieces = before ++ after) (c : Char) :
    t.findCode? (size (spell before)) c =
      (splitAtCode? c after).map fun parts => size (spell before) + size (spell parts.1) := by
  have early : ∀ place ∈ codeFrom 0 before,
      ¬(decide (size (spell before) ≤ place.1) && decide (place.2 = c)) = true := by
    rintro ⟨i, d⟩ member
    have := (of_mem_codeFrom member).2.1
    simp only [Bool.and_eq_true, decide_eq_true_eq]
    omega
  rw [findCode?, code, split, codeFrom_append, Nat.zero_add, List.find?_append,
    List.find?_eq_none.mpr early, Option.none_or]
  exact find?_codeFrom c after (Nat.le_refl _)

/-- The matching bracket is at the end of the pieces that the bracket encloses. -/
theorem matchingBracket?_eq {opening : Char} (split : t.pieces = before ++ .code opening :: after)
    (closing : Char) :
    t.matchingBracket? (size (spell before)) opening closing =
      (splitAtClose? opening closing 0 after).map fun parts =>
        size (spell before) + opening.utf8Size + size (spell parts.1) := by
  have early : ∀ place ∈ codeFrom 0 before, decide (place.1 < size (spell before)) = true := by
    rintro ⟨i, c⟩ member
    have := (of_mem_codeFrom member).2.1
    rw [decide_eq_true_eq]
    omega
  rw [matchingBracket?, code, split, codeFrom_append, Nat.zero_add,
    List.dropWhile_append_of_pos early, codeFrom, List.dropWhile_cons_of_neg (by simp), matchFrom,
    if_pos rfl]
  exact matchFrom_codeFrom _

/-- The place behind the first block from an offset on. -/
def blockEnd? (t : Text) (start : Nat) : Option Nat := do
  let opening ← t.findCode? start '{'
  let close ← t.matchingBracket? opening '{' '}'
  return close + 1

/-- A block ends where the text from its start on is cut behind the block. -/
theorem blockEnd?_eq (split : t.pieces = before ++ after) :
    t.blockEnd? (size (spell before)) =
      (spell after).cutBlock?.map fun cut => size (spell before) + size cut.1 := by
  have scanned := scanned_pieces t
  rw [split] at scanned
  have alone := pieces_spell (scanned.part (List.suffix_append before after).isInfix)
  rw [blockEnd?, findCode?_eq split, cutBlock?, alone]
  cases opens : splitAtCode? '{' after with
  | none => rfl
  | some parts =>
    obtain ⟨header, rest⟩ := parts
    have whole : t.pieces = (before ++ header) ++ .code '{' :: rest := by
      rw [split, (eq_of_splitAtCode? opens).1, List.append_assoc]
    have bracket := matchingBracket?_eq whole '}'
    rw [spell_append, size_append] at bracket
    simp only [Option.map_some, Option.bind_eq_bind, Option.bind_some, bracket]
    cases splitAtClose? '{' '}' 0 rest with
    | none => rfl
    | some parts =>
      simp only [Option.map_some, Option.bind_some, Option.pure_def, Option.some_inj, size_append,
        size_cons, size_nil]
      have one : '{'.utf8Size = 1 := rfl
      have one' : '}'.utf8Size = 1 := rfl
      omega

/-- Cutting off a block loses nothing. -/
theorem eq_append_of_cutBlock? {t : Text} {parts : Text × Text} (cut : t.cutBlock? = some parts) :
    t = parts.1 ++ parts.2 := by
  obtain ⟨header, inside, rest, whole, -, -, block, after⟩ := exists_of_cutBlock? cut
  rw [block, after, ← spell_append, ← spell_pieces t, whole]
  simp

/-- The code characters between two others. -/
theorem filter_code_between {t : Text} {front inside after : List Piece} {c d : Char}
    (split : t.pieces = front ++ .code c :: (inside ++ .code d :: after)) :
    (t.code.filter fun (i, _) => decide (size (spell front) < i) &&
        decide (i < size (spell front) + c.utf8Size + size (spell inside))) =
      codeFrom (size (spell front) + c.utf8Size) inside := by
  have positive := c.utf8Size_pos
  have early : ∀ place ∈ codeFrom 0 front, place.1 < size (spell front) := by
    rintro ⟨i, e⟩ member
    have := (of_mem_codeFrom member).2.1
    omega
  have within : ∀ place ∈ codeFrom (size (spell front) + c.utf8Size) inside,
      size (spell front) + c.utf8Size ≤ place.1 ∧
        place.1 < size (spell front) + c.utf8Size + size (spell inside) := by
    rintro ⟨i, e⟩ member
    exact ⟨(of_mem_codeFrom member).1, (of_mem_codeFrom member).2.1⟩
  have late : ∀ place ∈ codeFrom (size (spell front) + c.utf8Size + size (spell inside))
      (.code d :: after), size (spell front) + c.utf8Size + size (spell inside) ≤ place.1 := by
    rintro ⟨i, e⟩ member
    exact (of_mem_codeFrom member).1
  have none : (codeFrom 0 front).filter (fun (i, _) => decide (size (spell front) < i) &&
      decide (i < size (spell front) + c.utf8Size + size (spell inside))) = [] := by
    refine List.filter_eq_nil_iff.mpr fun place member => ?_
    have := early place member
    simp only [Bool.and_eq_true, decide_eq_true_eq]
    omega
  rw [code, split, codeFrom_append, Nat.zero_add, List.filter_append, codeFrom, codeFrom_append,
    List.filter_cons_of_neg (by simp), List.filter_append, none, List.nil_append]
  rw [List.filter_eq_self.mpr, List.filter_eq_nil_iff.mpr, List.append_nil]
  · intro place member
    have := late place member
    simp only [Bool.and_eq_true, decide_eq_true_eq]
    omega
  · intro place member
    have := within place member
    simp only [Bool.and_eq_true, decide_eq_true_eq]
    omega

/-! ### Lines -/

/-- Whether a line starts at an offset, with a given text from there on. -/
def StartsLineAt (t : Text) (start : Nat) (tail : Text) : Prop :=
  ∃ before : Text, t = before ++ tail ∧ start = size before ∧ before.LineStarts

private theorem forall₂_afterLineFeeds (s t : Text) :
    List.Forall₂ (StartsLineAt (s ++ t)) ((lineFeeds t).map (size s + · + 1))
      (afterLineFeeds t) := by
  induction t generalizing s with
  | nil => exact .nil
  | cons c t ih =>
    have rest := ih (s ++ [c])
    have shifted : ((lineFeeds t).map (c.utf8Size + ·)).map (size s + · + 1) =
        (lineFeeds t).map (size (s ++ [c]) + · + 1) := by
      rw [List.map_map]
      simp [Function.comp_def, Nat.add_assoc]
    rw [lineFeeds_cons, List.map_append, shifted, afterLineFeeds]
    rw [List.append_assoc, List.singleton_append] at rest
    by_cases feed : c = '\n'
    · subst feed
      exact .cons ⟨s ++ ['\n'], by simp, by simp [show '\n'.utf8Size = 1 from rfl],
        .inr (by simp)⟩ rest
    · rw [if_neg feed, if_neg feed]
      exact rest

/-- The offsets of the lines are the places in front of what is left of the text there. -/
theorem forall₂_lineTails (t : Text) :
    List.Forall₂ (StartsLineAt t) t.lineOffsets t.lineTails := by
  refine .cons ⟨[], rfl, rfl, .inl rfl⟩ ?_
  simpa using forall₂_afterLineFeeds [] t

private theorem lineEnds_dropWhile (t : Text) : LineEnds (t.dropWhile (· ≠ '\n')) := by
  cases left : t.dropWhile (· ≠ '\n') with
  | nil => exact .inl rfl
  | cons c rest =>
    have first := List.head?_dropWhile_not (fun c : Char => decide (c ≠ '\n')) t
    rw [left] at first
    exact .inr (by simpa using first)

private theorem not_mem_takeWhile (t : Text) : '\n' ∉ t.takeWhile (· ≠ '\n') := by
  intro member
  simpa using List.mem_takeWhile_imp member

/-- A line ends in front of the first line feed behind a place on it. -/
theorem lineRange_snd_append (s t : Text) :
    (lineRange (s ++ t) (size s)).2 = size s + size (t.takeWhile (· ≠ '\n')) := by
  have early : (lineFeeds s).find? (size s ≤ ·) = none := by
    refine List.find?_eq_none.mpr fun i member => ?_
    have bound := lt_size_of_mem_lineFeeds member
    simpa using bound
  have late : ((lineFeeds t).map (size s + ·)).find? (size s ≤ ·) =
      (lineFeeds t).head?.map (size s + ·) := by
    cases lineFeeds t <;> simp
  have first : (lineFeeds t).head? =
      if t.dropWhile (· ≠ '\n') = [] then none else some (size (t.takeWhile (· ≠ '\n'))) := by
    have feeds := lineFeeds_append (t.takeWhile (· ≠ '\n')) (t.dropWhile (· ≠ '\n'))
    rw [List.takeWhile_append_dropWhile, lineFeeds_of_not_mem (not_mem_takeWhile t),
      List.nil_append] at feeds
    rw [feeds, List.head?_map, head?_lineFeeds (lineEnds_dropWhile t)]
    split <;> simp
  change ((lineFeeds (s ++ t)).find? (size s ≤ ·)).getD (size (s ++ t)) = _
  rw [lineFeeds_append, List.find?_append, early, Option.none_or, late, first]
  have sizes := congrArg size
    (List.takeWhile_append_dropWhile (p := fun c : Char => decide (c ≠ '\n')) (l := t))
  rw [size_append] at sizes
  split
  · next none =>
    rw [none, size_nil] at sizes
    simp only [Option.map_none, Option.getD_none, size_append]
    omega
  · rfl

/-- A line feed in a text without comments is a piece of code. -/
theorem exists_pieces_of_lineFeed {ps : List Piece} (formed : ∀ p ∈ ps, p.WellFormed)
    (free : ∀ p ∈ ps, p.isComment = false) {s t : Text} (spelled : spell ps = s ++ '\n' :: t) :
    ∃ front back, ps = front ++ .code '\n' :: back ∧ spell front = s ∧ spell back = t := by
  induction ps generalizing s with
  | nil => simp at spelled
  | cons p ps ih =>
    have later : ∀ s', s = p.text ++ s' → spell ps = s' ++ '\n' :: t →
        ∃ front back, p :: ps = front ++ .code '\n' :: back ∧ spell front = s ∧
          spell back = t := by
      rintro s' rfl rest
      obtain ⟨front, back, rfl, rfl, rfl⟩ :=
        ih (fun q member => formed q (List.mem_cons_of_mem _ member))
          (fun q member => free q (List.mem_cons_of_mem _ member)) rest
      exact ⟨p :: front, back, rfl, rfl, rfl⟩
    rw [spell_cons, List.append_eq_append_iff] at spelled
    rcases spelled with ⟨s', own, rest⟩ | ⟨own, text, rest⟩
    · exact later s' own rest
    · cases own with
      | nil => exact later [] (by simpa using text.symm) rest.symm
      | cons c own =>
        obtain ⟨rfl, rfl⟩ := List.cons.inj rest
        obtain rfl : p = .code '\n' := by
          by_contra other
          refine (formed p List.mem_cons_self).not_mem_lineFeed (free p List.mem_cons_self) other ?_
          rw [text]
          simp
        have lengths := congrArg List.length text
        simp only [Piece.text, List.length_append, List.length_cons, List.length_nil] at lengths
        obtain rfl : s = [] := List.eq_nil_of_length_eq_zero (by omega)
        obtain rfl : own = [] := List.eq_nil_of_length_eq_zero (by omega)
        exact ⟨[], ps, rfl, rfl, rfl⟩

/-- The lines of a text without comments start between its pieces. -/
theorem StartsLineAt.exists_pieces {t tail : Text} {start : Nat} (free : t.CommentFree)
    (line : t.StartsLineAt start tail) :
    ∃ front back, t.pieces = front ++ back ∧ start = size (spell front) ∧ tail = spell back := by
  obtain ⟨before, whole, rfl, starts⟩ := line
  rcases starts with rfl | last
  · exact ⟨[], t.pieces, rfl, rfl, by rw [spell_pieces]; exact whole.symm⟩
  · obtain ⟨s, rfl⟩ := List.getLast?_eq_some_iff.mp last
    have spelled : spell t.pieces = s ++ '\n' :: tail := by
      rw [spell_pieces, whole, List.append_assoc]
      rfl
    obtain ⟨front, back, split, rfl, rfl⟩ :=
      exists_pieces_of_lineFeed (scanned_pieces t).wellFormed free spelled
    exact ⟨front ++ [.code '\n'], back, by rw [split, List.append_assoc]; rfl, by simp [Piece.text],
      rfl⟩

end Text

/-! ### Assignment operators -/

namespace Verification

open Text

/-- Whether one of some characters stands in front of an offset, by its byte. -/
def isBehind (t : Text) (i : Nat) (chars : List Char) : Bool :=
  i ≠ 0 && chars.any fun c => t.bytes[i - 1]? = some c.toUInt8

private theorem isBehind_append {chars : List Char} (narrow : ∀ c ∈ chars, c.utf8Size = 1)
    (s t : Text) (c : Char) :
    isBehind (s ++ [c] ++ t) (size (s ++ [c])) chars = chars.contains c := by
  have positive := c.utf8Size_pos
  have nonzero : size (s ++ [c]) ≠ 0 := by simp; omega
  rw [isBehind, decide_eq_true nonzero, Bool.true_and, Bool.eq_iff_iff, List.any_eq_true,
    List.contains_iff_mem]
  constructor
  · rintro ⟨d, member, found⟩
    rw [decide_eq_true_eq, getElem?_bytes_concat_append (narrow d member)] at found
    exact found ▸ member
  · intro member
    refine ⟨c, member, decide_eq_true ?_⟩
    rw [getElem?_bytes_concat_append (narrow c member)]

/-- The offset of the operator that ends in the equals sign at an offset; `none` when the sign
belongs to a comparison. -/
def operatorAt? (t : Text) (i : Nat) : Option Nat :=
  if isBehind t i ['!', '<', '>', '='] then none
  else if isBehind t i ['+', '-', '*', '/', '%', '&', '|', '^'] then some (i - 1)
  else some i

private theorem operatorAt?_eq (before rest : Text) :
    operatorAt? (before.reverse ++ rest) (size before.reverse) =
      (beforeOperator? before).map fun operand => size operand.reverse := by
  cases before with
  | nil => rfl
  | cons c before =>
    rw [List.reverse_cons, operatorAt?, isBehind_append (by decide), isBehind_append (by decide),
      beforeOperator?]
    split
    · rfl
    · split
      · next operator =>
        have narrow : ∀ d ∈ ['+', '-', '*', '/', '%', '&', '|', '^'], d.utf8Size = 1 := by decide
        have one := narrow c (List.contains_iff_mem.mp operator)
        simp [one]
      · simp

/-- The offsets of the assignment operators among code characters, those before an offset left
out. -/
def operatorsFrom (t : Text) (start : Nat) : List (Nat × Char) → List Nat
  | [] => []
  | (i, c) :: code =>
    if start ≤ i ∧ c = '=' then
      if t.bytes[i + 1]? = some '='.toUInt8 then operatorsFrom t (i + 2) code
      else (operatorAt? t i).toList ++ operatorsFrom t start code
    else operatorsFrom t start code

/-- The operators that the search over offsets finds are those found among the pieces. -/
theorem operatorsFrom_eq {t : Text} (before : Text) {ps : List Piece}
    (formed : ∀ p ∈ ps, p.WellFormed) (whole : t = before.reverse ++ spell ps) {start : Nat}
    (reached : start ≤ size before.reverse) :
    operatorsFrom t start (codeFrom (size before.reverse) ps) =
      (assignments before ps).map fun operand => size operand.reverse := by
  have one : '='.utf8Size = 1 := rfl
  fun_induction assignments before ps generalizing start with
  | case1 => rfl
  | case2 before ps ih =>
    have next : t.bytes[size before.reverse + 1]? = some '='.toUInt8 := by
      have found := (getElem?_bytes_append one (before.reverse ++ ['=']) ('=' :: spell ps)).mpr rfl
      rw [whole]
      simpa [Piece.text, one] using found
    have rest := ih (fun p member => formed p (by simp [member]))
      (by simpa [Piece.text] using whole) (Nat.le_refl _)
    simp only [codeFrom]
    rw [operatorsFrom, if_pos ⟨reached, rfl⟩, if_pos next, operatorsFrom,
      if_neg (by rw [one]; omega), ← rest]
    simp [one, Nat.add_assoc]
  | case3 before ps single ih =>
    have other : ¬t.bytes[size before.reverse + 1]? = some '='.toUInt8 := by
      intro found
      have head : (spell ps).head? = some '=' := by
        refine (getElem?_bytes_append one (before.reverse ++ ['=']) (spell ps)).mp ?_
        rw [whole] at found
        simpa [Piece.text, one] using found
      rw [head?_spell_eq_some_iff (fun p member => formed p (List.mem_cons_of_mem _ member)) rfl
        (by decide)] at head
      obtain ⟨rest, rfl⟩ := List.head?_eq_some_iff.mp head
      exact single rest rfl
    have later : start ≤ size ('=' :: before).reverse := by
      rw [List.reverse_cons, size_append]
      omega
    have rest := ih (fun p member => formed p (List.mem_cons_of_mem _ member))
      (by simpa [Piece.text] using whole) later
    have operator := operatorAt?_eq before ('=' :: spell ps)
    rw [codeFrom, operatorsFrom, if_pos ⟨reached, rfl⟩, if_neg other, List.map_append]
    congr 1
    · rw [whole]
      refine (congrArg Option.toList operator).trans ?_
      cases beforeOperator? before <;> rfl
    · rw [← rest]
      simp
  | case4 before p ps notDouble notSign ih =>
    have later : start ≤ size (p.text.reverse ++ before).reverse := by
      rw [List.reverse_append, size_append]
      omega
    have rest := ih (fun q member => formed q (List.mem_cons_of_mem _ member))
      (by simpa using whole) later
    rw [← rest]
    cases p with
    | code c =>
      have other : c ≠ '=' := by
        rintro rfl
        exact notSign rfl
      rw [codeFrom, operatorsFrom, if_neg (fun both => other both.2)]
      simp [Piece.text]
    | region kind body closed =>
      rw [codeFrom]
      simp [Piece.text]

end Verification

/-! ### Gaps and names -/

namespace Text

/-- What follows the gaps at the front of pieces is no gap. -/
theorem head?_takeCode_isGap {ps : List Piece} (formed : ∀ p ∈ ps, p.WellFormed) :
    ∀ c ∈ (spell (takeCode isGap ps).2).head?, isGap c = false := by
  fun_induction takeCode isGap ps with
  | case1 c ps holds taken ih => exact ih fun p member => formed p (List.mem_cons_of_mem _ member)
  | case2 c ps other =>
    intro d head
    obtain rfl : c = d := by simpa [Piece.text] using head
    exact Bool.eq_false_iff.mpr other
  | case3 ps notCode =>
    intro d head
    cases ps with
    | nil => cases head
    | cons p ps =>
      cases formed p List.mem_cons_self with
      | @code c => exact absurd rfl (notCode c ps)
      | line =>
        obtain rfl : '/' = d := by simpa [Piece.text] using head
        rfl
      | block =>
        obtain rfl : '/' = d := by simpa [Piece.text] using head
        rfl
      | @literal quote kind body closed opens =>
        obtain rfl : quote = d := by simpa [Piece.text] using head
        refine Bool.eq_false_iff.mpr fun gap => ?_
        have blank := isBlank_of_isGap gap
        rw [Region.isBlank_of_ofQuote? opens] at blank
        cases blank

/-- Gaps are skipped up to the end of the gap characters among the pieces. -/
theorem skipGaps_spell (before : Text) {ps : List Piece} (formed : ∀ p ∈ ps, p.WellFormed) :
    skipGaps (before ++ spell ps) (size before) = size before + size (takeCode isGap ps).1 := by
  rw [spell_takeCode isGap ps]
  exact skipGaps_append before (eq_takeCode isGap ps).2 (head?_takeCode_isGap formed)

/-- The sign behind gaps is found by its byte. -/
theorem getElem?_skipGaps_iff (before : Text) {ps : List Piece} (formed : ∀ p ∈ ps, p.WellFormed)
    {c : Char} (ascii : c.utf8Size = 1) (plain : Region.ofQuote? c = none) (noSlash : c ≠ '/') :
    (bytes (before ++ spell ps))[skipGaps (before ++ spell ps) (size before)]? = some c.toUInt8 ↔
      ∃ rest, (takeCode isGap ps).2 = .code c :: rest := by
  have left : ∀ p ∈ (takeCode isGap ps).2, p.WellFormed := by
    intro p member
    refine formed p ?_
    rw [(eq_takeCode isGap ps).1]
    exact List.mem_append_right _ member
  rw [skipGaps_spell before formed, ← size_append]
  nth_rewrite 1 [spell_takeCode isGap ps]
  rw [← List.append_assoc, getElem?_bytes_append ascii, head?_spell_eq_some_iff left plain noSlash,
    List.head?_eq_some_iff]

/-- The name at the front of pieces is the one at the front of what they spell. -/
theorem takeWhile_spell {ps : List Piece} (formed : ∀ p ∈ ps, p.WellFormed) :
    (spell ps).takeWhile isIdentChar = (takeCode isIdentChar ps).1 := by
  fun_induction takeCode isIdentChar ps with
  | case1 c ps holds taken ih =>
    rw [spell_cons, Piece.text, List.singleton_append, List.takeWhile_cons_of_pos holds,
      ih fun p member => formed p (List.mem_cons_of_mem _ member)]
  | case2 c ps other =>
    rw [spell_cons, Piece.text, List.singleton_append, List.takeWhile_cons_of_neg other]
  | case3 ps notCode =>
    cases ps with
    | nil => rfl
    | cons p ps =>
      cases formed p List.mem_cons_self with
      | @code c => exact absurd rfl (notCode c ps)
      | line => rfl
      | block => rfl
      | @literal quote kind body closed opens =>
        have other : ¬isIdentChar quote = true := by
          unfold Region.ofQuote? at opens
          split at opens
          · next same => rw [same]; decide
          · split at opens
            · next same => rw [same]; decide
            · cases opens
        exact List.takeWhile_cons_of_neg other

/-- The bytes of a name behind a place. -/
theorem length_takeWhile_drop_bytes (before : Text) {ps : List Piece}
    (formed : ∀ p ∈ ps, p.WellFormed) :
    (((bytes (before ++ spell ps)).drop (size before)).takeWhile (byteIn isIdentChar)).length =
      size (takeCode isIdentChar ps).1 := by
  rw [bytes_append, ← length_bytes, List.drop_left,
    takeWhile_bytes (p := isIdentChar) fun _ => utf8Size_of_isIdentChar, length_bytes,
    takeWhile_spell formed]

end Text

/-! ### Format calls -/

namespace FormatCall

open Text

/-- The end of a literal and the parenthesis behind it, if it is the literal of a format call. -/
def behind? (t : Text) (span : Span) : Option (Nat × Nat) :=
  if span.kind = .string ∧ span.closed = true then
    let percent := t.skipGaps span.stop
    let opening := t.skipGaps (percent + 1)
    if t.bytes[percent]? = some '%'.toUInt8 ∧ t.bytes[opening]? = some '('.toUInt8 then
      some (span.stop, opening)
    else none
  else none

/-- The end of the literal and the opening parenthesis of the first format call. -/
def at? (t : Text) : Option (Nat × Nat) :=
  t.literals.findSome? (behind? t)

private theorem behind?_eq (before : Text) {ps : List Piece} (formed : ∀ p ∈ ps, p.WellFormed)
    (start : Nat) :
    behind? (before ++ spell ps) ⟨start, size before, .string, true⟩ =
      (argumentsAfter? ps).map fun found => (size before, size before + size found.1) := by
  have one : '%'.utf8Size = 1 := rfl
  have sign := getElem?_skipGaps_iff before formed one rfl (by decide)
  have taken := eq_takeCode isGap ps
  have place := skipGaps_spell before formed
  have spelled := spell_takeCode isGap ps
  rw [behind?, if_pos ⟨rfl, rfl⟩]
  simp only [argumentsAfter?, percentAfter?, Option.bind_eq_bind]
  generalize takeCode isGap ps = first at *
  obtain ⟨gap, after⟩ := first
  by_cases percent : ∃ rest, after = .code '%' :: rest
  · obtain ⟨rest, rfl⟩ := percent
    have formed' : ∀ p ∈ rest, p.WellFormed := by
      intro p member
      refine formed p ?_
      rw [taken.1]
      simp [member]
    have whole : before ++ spell ps = (before ++ (gap ++ ['%'])) ++ spell rest := by
      simp [spelled, Piece.text]
    have opening := getElem?_skipGaps_iff (before ++ (gap ++ ['%'])) formed' (c := '(')
      rfl rfl (by decide)
    have place' := skipGaps_spell (before ++ (gap ++ ['%'])) formed'
    have behind : size before + size gap + 1 = size (before ++ (gap ++ ['%'])) := by
      simp [one, Nat.add_assoc]
    rw [← whole] at opening place'
    rw [place] at sign
    rw [place, behind]
    simp only [Option.bind_some]
    generalize takeCode isGap rest = second at *
    obtain ⟨gap', inside⟩ := second
    by_cases parenthesis : ∃ more, inside = .code '(' :: more
    · rw [if_pos ⟨sign.mpr ⟨rest, rfl⟩, opening.mpr parenthesis⟩, place']
      obtain ⟨more, rfl⟩ := parenthesis
      simp [Nat.add_assoc]
    · rw [if_neg fun both => parenthesis (opening.mp both.2)]
      split
      · next equal =>
        cases equal
        exact absurd ⟨_, rfl⟩ parenthesis
      · rfl
  · rw [if_neg fun both => percent (sign.mp both.1)]
    split
    · next equal =>
      cases equal
      exact absurd ⟨_, rfl⟩ percent
    · rfl

/-- The offsets of a call behind a text. -/
def offsetsBehind (before : Text) (call : FormatCall) : Nat × Nat :=
  (size before + size call.literal, size before + size call.literal + size call.percent)

private theorem map_offsetsBehind (before : Text) (p : Piece) (found : Option FormatCall) :
    (found.map fun call => { call with literal := p.text ++ call.literal }).map
        (offsetsBehind before) =
      found.map (offsetsBehind (before ++ p.text)) := by
  rw [Option.map_map]
  congr 1
  funext call
  simp [offsetsBehind, Nat.add_assoc]

private theorem findSome?_behind? {t : Text} (before : Text) {ps : List Piece}
    (formed : ∀ p ∈ ps, p.WellFormed) (whole : t = before ++ spell ps) :
    ((spansFrom (size before) ps).filter (·.kind ≠ .comment)).findSome? (behind? t) =
      (find? ps).map (offsetsBehind before) := by
  fun_induction find? ps generalizing before with
  | case1 => rfl
  | case2 body ps percent rest here =>
    have found := behind?_eq (before ++ body)
      (fun p member => formed p (List.mem_cons_of_mem _ member)) (size before)
    rw [here, List.append_assoc, size_append] at found
    rw [spansFrom, List.filter_cons_of_pos (by simp), List.findSome?_cons, whole]
    simp only [spell_cons, Piece.text, found]
    rfl
  | case3 body ps here ih =>
    have formed' := fun p member => formed p (List.mem_cons_of_mem _ member)
    have rest := ih (before ++ body) formed' (by simpa [Piece.text] using whole)
    have missed := behind?_eq (before ++ body) formed' (size before)
    rw [here, List.append_assoc, size_append] at missed
    have skipped : behind? t ⟨size before, size before + size body, .string, true⟩ = none := by
      rw [whole]
      exact missed
    rw [spansFrom, List.filter_cons_of_pos (by simp), List.findSome?_cons, skipped,
      ← size_append, rest]
    exact (map_offsetsBehind before (.region .string body true) _).symm
  | case4 p ps other ih =>
    have formed' := fun q member => formed q (List.mem_cons_of_mem _ member)
    have rest := ih (before ++ p.text) formed' (by simpa using whole)
    rw [map_offsetsBehind, ← rest, size_append]
    cases p with
    | code c => rfl
    | region kind body closed =>
      rw [spansFrom]
      by_cases comment : kind = .comment
      · rw [List.filter_cons_of_neg (by simpa using comment)]
        rfl
      · have skipped : behind? t ⟨size before, size before + size body, kind, closed⟩ = none := by
          rw [behind?, if_neg]
          rintro ⟨rfl, rfl⟩
          exact other body rfl
        rw [List.filter_cons_of_pos (by simpa using comment), List.findSome?_cons, skipped]
        rfl

/-- The first format call by offset is the one among the pieces. -/
theorem at?_eq (t : Text) : at? t = (find? t.pieces).map (offsetsBehind []) :=
  findSome?_behind? [] (scanned_pieces t).wellFormed (spell_pieces t).symm

end FormatCall

end ScriptLoom
