import ScriptLoom.Proofs.Lists
import ScriptLoom.Proofs.Nesting

/-! # Places in a text

A place between two characters is the size of the text before it. What the operations on offsets
give at such a place is said here on the two or three parts that a text is put together from: the
slice between two places, the number of the line at a place (`Text.lineNumberAt_append`), the bounds
of a line (`Text.lineRange_of_lineNumberAt`) and the closing bracket of a block
(`Text.matchingBracket?_of_pieces`).
-/

namespace ScriptLoom

namespace Text

/-! ### Slices -/

/-- The bytes of the first of two texts are taken as that text. -/
theorem takeBytes_append (s t : Text) : takeBytes (s ++ t) (size s) = s := by
  induction s with
  | nil => cases t <;> simp [takeBytes]
  | cons c s ih =>
    have positive := c.utf8Size_pos
    rw [List.cons_append, takeBytes, size_cons, if_neg (by omega), Nat.add_sub_cancel_left, ih]

/-- The bytes of the first of two texts are dropped with that text. -/
theorem dropBytes_append (s t : Text) : dropBytes (s ++ t) (size s) = t := by
  induction s with
  | nil => cases t <;> simp [dropBytes]
  | cons c s ih =>
    have positive := c.utf8Size_pos
    rw [List.cons_append, dropBytes, size_cons, if_neg (by omega), Nat.add_sub_cancel_left, ih]

/-- The part between two others is the slice between their places. -/
theorem slice_append (s t u : Text) : slice (s ++ (t ++ u)) (size s) (size s + size t) = t := by
  rw [slice, ← List.append_assoc, ← size_append, takeBytes_append, dropBytes_append]

/-! ### Line feeds -/

/-- The characters of the second of two texts are counted on. -/
theorem indexedFrom_append (start : Nat) (s t : Text) :
    indexedFrom start (s ++ t) = indexedFrom start s ++ indexedFrom (start + size s) t := by
  induction s generalizing start with
  | nil => rfl
  | cons c s ih =>
    rw [List.cons_append, indexedFrom, indexedFrom, ih, size_cons, Nat.add_assoc]
    rfl

private theorem indexedFrom_add (shift start : Nat) (t : Text) :
    indexedFrom (shift + start) t = (indexedFrom start t).map fun (i, c) => (shift + i, c) := by
  induction t generalizing start with
  | nil => rfl
  | cons c t ih => rw [indexedFrom, indexedFrom, List.map_cons, Nat.add_assoc, ih]

/-- The line feeds of the second of two texts are counted on. -/
theorem lineFeeds_append (s t : Text) :
    lineFeeds (s ++ t) = lineFeeds s ++ (lineFeeds t).map (size s + ·) := by
  have shifted : indexedFrom (0 + size s) t =
      (indexedFrom 0 t).map fun (i, c) => (size s + i, c) := by
    rw [Nat.zero_add]
    exact indexedFrom_add (size s) 0 t
  unfold lineFeeds indexed
  rw [indexedFrom_append, List.filterMap_append, shifted, List.filterMap_map, List.map_filterMap]
  congr 2
  funext ⟨i, c⟩
  by_cases feed : c = '\n' <;> simp [feed]

/-- A single character is a line feed at the start or none. -/
theorem lineFeeds_singleton (c : Char) : lineFeeds [c] = if c = '\n' then [0] else [] := by
  by_cases feed : c = '\n' <;> simp [lineFeeds, indexed, indexedFrom, feed]

/-- The line feeds behind a character are counted on from its size. -/
theorem lineFeeds_cons (c : Char) (t : Text) :
    lineFeeds (c :: t) =
      (if c = '\n' then [0] else []) ++ (lineFeeds t).map (c.utf8Size + ·) := by
  rw [← List.singleton_append, lineFeeds_append, lineFeeds_singleton, size_cons, size_nil,
    Nat.add_zero]

/-- Line feeds are within the text. -/
theorem lt_size_of_mem_lineFeeds {t : Text} {i : Nat} (member : i ∈ lineFeeds t) : i < size t := by
  induction t generalizing i with
  | nil => cases member
  | cons c t ih =>
    have positive := c.utf8Size_pos
    rw [lineFeeds_cons, List.mem_append, List.mem_map] at member
    rw [size_cons]
    rcases member with first | ⟨j, later, rfl⟩
    · split at first
      · rw [List.mem_singleton.mp first]
        omega
      · cases first
    · have bound := ih later
      omega

/-- There are as many places of line feeds as line feeds. -/
@[simp]
theorem length_lineFeeds (t : Text) : (lineFeeds t).length = t.count '\n' := by
  induction t with
  | nil => rfl
  | cons c t ih =>
    rw [lineFeeds_cons, List.length_append, List.length_map, ih, List.count_cons]
    by_cases feed : c = '\n' <;> simp [feed, Nat.add_comm]

/-- A text on one line has no place of a line feed. -/
theorem lineFeeds_of_not_mem {t : Text} (inLine : '\n' ∉ t) : lineFeeds t = [] := by
  rw [← List.length_eq_zero_iff, length_lineFeeds]
  exact List.count_eq_zero_of_not_mem inLine

/-! ### Line numbers -/

/-- The line at a place behind a text, up to the next line feed. -/
theorem lineNumberAt_append {s t : Text} {offset : Nat} (reached : size s ≤ offset)
    (within : ∀ i ∈ lineFeeds t, offset ≤ size s + i) :
    lineNumberAt (s ++ t) offset = lineAfter s := by
  have earlier : (lineFeeds s).filter (· < offset) = lineFeeds s := by
    rw [List.filter_eq_self]
    intro i member
    have bound := lt_size_of_mem_lineFeeds member
    exact decide_eq_true (by omega)
  have later : ((lineFeeds t).map (size s + ·)).filter (· < offset) = [] := by
    rw [List.filter_eq_nil_iff]
    intro i member
    obtain ⟨j, listed, rfl⟩ := List.mem_map.mp member
    have bound := within j listed
    simpa using bound
  rw [lineNumberAt, lineFeeds_append, List.filter_append, earlier, later, List.append_nil,
    length_lineFeeds, lineAfter]

/-- The line of every byte of a character is the line that follows the text before it. -/
theorem lineNumberAt_append_cons (s t : Text) {c : Char} {k : Nat} (inside : k < c.utf8Size) :
    lineNumberAt (s ++ c :: t) (size s + k) = lineAfter s := by
  apply lineNumberAt_append (Nat.le_add_right _ _)
  intro i member
  rw [lineFeeds_cons, List.mem_append, List.mem_map] at member
  rcases member with first | ⟨j, -, rfl⟩
  · split at first
    · next feed =>
      have single : '\n'.utf8Size = 1 := rfl
      rw [feed, single] at inside
      omega
    · cases first
  · omega

/-- Each line feed of a text leads one line on. -/
theorem lineAfter_append (s t : Text) : lineAfter (s ++ t) = lineAfter s + t.count '\n' := by
  rw [lineAfter, lineAfter, List.count_append, Nat.add_assoc]

/-! ### The bounds of a line -/

/-- Whether a new line starts behind a text. -/
def LineStarts (t : Text) : Prop :=
  t = [] ∨ t.getLast? = some '\n'

private theorem getLast?_lineFeeds {t : Text} (starts : t.LineStarts) :
    ((lineFeeds t).getLast?.map (· + 1)).getD 0 = size t := by
  rcases starts with rfl | last
  · rfl
  · obtain ⟨front, rfl⟩ := List.getLast?_eq_some_iff.mp last
    rw [lineFeeds_append, lineFeeds_singleton]
    simp [show '\n'.utf8Size = 1 from rfl]

/-- A text that ends a line has its first line feed at the start, unless it is empty. -/
theorem head?_lineFeeds {t : Text} (ends : t.LineEnds) :
    (lineFeeds t).head? = if t = [] then none else some 0 := by
  rcases ends with rfl | first
  · rfl
  · obtain ⟨rest, rfl⟩ := List.head?_eq_some_iff.mp first
    simp [lineFeeds_cons]

private theorem lineFeeds_append_line {line : Text} (inLine : '\n' ∉ line) (before after : Text) :
    lineFeeds (before ++ (line ++ after)) =
      lineFeeds before ++ (lineFeeds after).map (size before + size line + ·) := by
  rw [lineFeeds_append, lineFeeds_append, lineFeeds_of_not_mem inLine, List.nil_append,
    List.map_map]
  simp only [Function.comp_def, Nat.add_assoc]

/-- An offset on the line behind a text divides the line feeds before the line from those behind
it. -/
theorem divides_of_lineNumberAt {before line after : Text} (inLine : '\n' ∉ line) {offset : Nat}
    (number : lineNumberAt (before ++ (line ++ after)) offset = lineAfter before) :
    (∀ i ∈ lineFeeds before, i < offset) ∧
      ∀ i ∈ (lineFeeds after).map (size before + size line + ·), offset ≤ i := by
  have count := Nat.add_left_cancel number
  rw [← length_lineFeeds, lineFeeds_append_line inLine] at count
  have above : ∀ i ∈ (lineFeeds after).map (size before + size line + ·), size before ≤ i := by
    intro i member
    obtain ⟨j, -, rfl⟩ := List.mem_map.mp member
    omega
  exact divides_of_count (fun i member => lt_size_of_mem_lineFeeds member) above count

/-- An offset on the line behind a text has the bounds of that line. -/
theorem lineRange_of_lineNumberAt {before line after : Text} (inLine : '\n' ∉ line)
    (starts : before.LineStarts) (ends : after.LineEnds) {offset : Nat}
    (number : lineNumberAt (before ++ (line ++ after)) offset = lineAfter before) :
    lineRange (before ++ (line ++ after)) offset = (size before, size before + size line) := by
  have feeds := lineFeeds_append_line inLine before after
  obtain ⟨early, late⟩ := divides_of_lineNumberAt inLine number
  have kept : (lineFeeds before).filter (· < offset) = lineFeeds before :=
    List.filter_eq_self.mpr fun i member => decide_eq_true (early i member)
  have passed : ((lineFeeds after).map (size before + size line + ·)).filter (· < offset) = [] :=
    List.filter_eq_nil_iff.mpr fun i member => by simpa using late i member
  have none : (lineFeeds before).find? (offset ≤ ·) = none :=
    List.find?_eq_none.mpr fun i member => by simpa using early i member
  have first : ((lineFeeds after).map (size before + size line + ·)).find? (offset ≤ ·) =
      ((lineFeeds after).map (size before + size line + ·)).head? := by
    cases listed : (lineFeeds after).map (size before + size line + ·) with
    | nil => rfl
    | cons i rest =>
      have here := late i (listed ▸ List.mem_cons_self)
      simp [here]
  refine Prod.ext ?_ ?_
  · change (((lineFeeds _).filter (· < offset)).getLast?.map (· + 1)).getD 0 = _
    rw [feeds, List.filter_append, kept, passed, List.append_nil, getLast?_lineFeeds starts]
  · change ((lineFeeds _).find? (offset ≤ ·)).getD (size _) = _
    rw [feeds, List.find?_append, none, Option.none_or, first, List.head?_map, head?_lineFeeds ends]
    by_cases empty : after = [] <;> simp [empty]

/-- The line that holds an offset, cut out. -/
theorem slice_lineRange {before line after : Text} (inLine : '\n' ∉ line)
    (starts : before.LineStarts) (ends : after.LineEnds) {offset : Nat}
    (number : lineNumberAt (before ++ (line ++ after)) offset = lineAfter before) :
    slice (before ++ (line ++ after)) (lineRange (before ++ (line ++ after)) offset).1
      (lineRange (before ++ (line ++ after)) offset).2 = line := by
  rw [lineRange_of_lineNumberAt inLine starts ends number]
  exact slice_append before line after

end Text

/-! ### Regions and code -/

/-- The spans of further pieces are counted on. -/
theorem spansFrom_append (start : Nat) (ps qs : List Piece) :
    spansFrom start (ps ++ qs) =
      spansFrom start ps ++ spansFrom (start + Text.size (spell ps)) qs := by
  induction ps generalizing start with
  | nil => rfl
  | cons p ps ih =>
    cases p with
    | code c =>
      rw [List.cons_append, spansFrom, spansFrom, ih, spell_cons, Text.size_append,
        Nat.add_assoc]
      rfl
    | region kind body closed =>
      rw [List.cons_append, spansFrom, spansFrom, ih, spell_cons, Text.size_append,
        Nat.add_assoc, List.cons_append]
      rfl

/-- The spans of pieces lie between the place where the pieces start and the place where they
end. -/
theorem bounds_of_mem_spansFrom {start : Nat} {ps : List Piece} {span : Span}
    (member : span ∈ spansFrom start ps) :
    start ≤ span.start ∧ span.stop ≤ start + Text.size (spell ps) := by
  induction ps generalizing start with
  | nil => cases member
  | cons p ps ih =>
    rw [spell_cons, Text.size_append]
    cases p with
    | code c =>
      have later := ih member
      simp only [Piece.text, Text.size_cons, Text.size_nil]
      omega
    | region kind body closed =>
      rw [spansFrom] at member
      rw [Piece.text]
      rcases List.mem_cons.mp member with rfl | rest
      · exact ⟨Nat.le_refl _, by dsimp only; omega⟩
      · have later := ih rest
        omega

/-- The code of further pieces is counted on. -/
theorem codeFrom_append (start : Nat) (ps qs : List Piece) :
    codeFrom start (ps ++ qs) =
      codeFrom start ps ++ codeFrom (start + Text.size (spell ps)) qs := by
  induction ps generalizing start with
  | nil => rfl
  | cons p ps ih =>
    cases p with
    | code c =>
      rw [List.cons_append, codeFrom, codeFrom, ih, spell_cons, Text.size_append, Nat.add_assoc,
        List.cons_append]
      rfl
    | region kind body closed =>
      rw [List.cons_append, codeFrom, codeFrom, ih, spell_cons, Text.size_append, Nat.add_assoc]
      rfl

/-- The code of pieces lies within them. -/
theorem of_mem_codeFrom {start i : Nat} {c : Char} {ps : List Piece}
    (member : (i, c) ∈ codeFrom start ps) :
    start ≤ i ∧ i < start + Text.size (spell ps) ∧ .code c ∈ ps := by
  induction ps generalizing start with
  | nil => cases member
  | cons p ps ih =>
    rw [spell_cons, Text.size_append]
    cases p with
    | code d =>
      have positive := d.utf8Size_pos
      simp only [Piece.text, Text.size_cons, Text.size_nil]
      rcases List.mem_cons.mp member with same | later
      · cases same
        exact ⟨Nat.le_refl _, by omega, List.mem_cons_self⟩
      · obtain ⟨low, high, listed⟩ := ih later
        exact ⟨by omega, by omega, List.mem_cons_of_mem _ listed⟩
    | region kind body closed =>
      obtain ⟨low, high, listed⟩ := ih member
      rw [Piece.text]
      exact ⟨by omega, by omega, List.mem_cons_of_mem _ listed⟩

/-- Code that nests on its own is passed over in the search for a closing bracket. -/
theorem matchFrom_append {opening closing : Char} {depth final : Nat} {places : List (Nat × Char)}
    (reached : nesting opening closing depth (places.map (·.2)) = some final)
    (rest : List (Nat × Char)) :
    matchFrom opening closing (depth + 1) (places ++ rest) =
      matchFrom opening closing (final + 1) rest := by
  induction places generalizing depth with
  | nil =>
    cases reached
    rfl
  | cons place places ih =>
    obtain ⟨i, c⟩ := place
    simp only [List.map_cons, nesting] at reached
    simp only [List.cons_append, matchFrom]
    split at reached
    · next isOpening =>
      rw [if_pos isOpening]
      exact ih reached
    · next notOpening =>
      rw [if_neg notOpening]
      split at reached
      · next isClosing =>
        rw [if_pos isClosing]
        cases depth with
        | zero => cases reached
        | succ depth => exact ih reached
      · next notClosing =>
        rw [if_neg notClosing]
        exact ih reached

namespace Text

/-- A code character is found at its first place behind an offset. -/
theorem findCode?_of_pieces {t : Text} {before header rest : List Piece} {c : Char}
    (split : t.pieces = before ++ (header ++ .code c :: rest)) (first : .code c ∉ header) :
    t.findCode? (size (spell before)) c = some (size (spell before) + size (spell header)) := by
  have earlier : ∀ place ∈ codeFrom 0 before,
      ¬(decide (size (spell before) ≤ place.1) && decide (place.2 = c)) = true := by
    rintro ⟨i, d⟩ member
    have := (of_mem_codeFrom member).2.1
    simp only [Bool.and_eq_true, decide_eq_true_eq]
    omega
  have between : ∀ place ∈ codeFrom (size (spell before)) header,
      ¬(decide (size (spell before) ≤ place.1) && decide (place.2 = c)) = true := by
    rintro ⟨i, d⟩ member
    have listed := (of_mem_codeFrom member).2.2
    simp only [Bool.and_eq_true, decide_eq_true_eq]
    rintro ⟨-, rfl⟩
    exact first listed
  rw [findCode?, code, split, codeFrom_append, codeFrom_append, Nat.zero_add, List.find?_append,
    List.find?_eq_none.mpr earlier, Option.none_or, List.find?_append,
    List.find?_eq_none.mpr between, Option.none_or, codeFrom]
  simp

/-- The bracket that closes a block is the first one behind what nests inside it. -/
theorem matchingBracket?_of_pieces {t : Text} {before inside rest : List Piece}
    {opening closing : Char} (differ : opening ≠ closing)
    (split : t.pieces = before ++ .code opening :: (inside ++ .code closing :: rest))
    (nested : nesting opening closing 0 (codeOf inside) = some 0) :
    t.matchingBracket? (size (spell before)) opening closing =
      some (size (spell (before ++ .code opening :: inside))) := by
  have earlier : ∀ place ∈ codeFrom 0 before, decide (place.1 < size (spell before)) = true := by
    rintro ⟨i, c⟩ member
    have := (of_mem_codeFrom member).2.1
    rw [decide_eq_true_eq]
    omega
  rw [matchingBracket?, code, split, codeFrom_append, Nat.zero_add,
    List.dropWhile_append_of_pos earlier, codeFrom,
    List.dropWhile_cons_of_neg (by simp), matchFrom, if_pos rfl, codeFrom_append,
    matchFrom_append (by rw [map_snd_codeFrom, nested]), codeFrom, matchFrom, if_neg differ.symm,
    if_pos rfl]
  simp [Piece.text, Nat.add_assoc]

end Text

end ScriptLoom
