import ScriptLoom.Proofs.LinePositions

/-! # Scanning line by line

A line feed ends everything that is open but a block comment. So the spans of two texts with a line
feed between them are those of the first and, moved behind it, those of the second
(`Text.spans_append_lineFeed`). A text without comments has no block comments, and each of its lines
can be scanned alone: the scan of the line and that of the text leave the same code on it
(`Text.scans_linewise`).
-/

namespace ScriptLoom

/-- A span moved by a number of bytes. -/
def Span.shift (distance : Nat) (span : Span) : Span :=
  { span with start := distance + span.start, stop := distance + span.stop }

private theorem Span.contains_shift (distance i : Nat) (span : Span) :
    (span.shift distance).contains (distance + i) = span.contains i := by
  simp [Span.shift, Span.contains]

private theorem spansFrom_add (distance start : Nat) (ps : List Piece) :
    spansFrom (distance + start) ps = (spansFrom start ps).map (Span.shift distance) := by
  induction ps generalizing start with
  | nil => rfl
  | cons p ps ih =>
    cases p with
    | code c => rw [spansFrom, spansFrom, Nat.add_assoc, ih]
    | region kind body closed =>
      rw [spansFrom, spansFrom, Nat.add_assoc, ih]
      rfl

namespace Text

/-! ### Two texts with a line feed between them -/

private theorem endsWithText_of_spans {a : Text}
    (closed : ∀ span ∈ a.spans, span.kind = .comment → span.closed = true) :
    ∀ p ∈ a.pieces, p.endsWithText = false := by
  intro p member
  obtain ⟨before, after, split⟩ := List.append_of_mem member
  rcases p with c | ⟨kind, body, flag⟩
  · rfl
  · have own := closed _ (mem_spans_of_region split)
    cases kind with
    | comment => simpa [Piece.endsWithText] using own rfl
    | string => rfl
    | character => rfl

/-- A scan starts anew behind a line feed that no block comment is open at. -/
theorem spans_append_lineFeed {a : Text}
    (closed : ∀ span ∈ a.spans, span.kind = .comment → span.closed = true) (b : Text) :
    spans (a ++ '\n' :: b) = a.spans ++ b.spans.map (Span.shift (size a + 1)) := by
  have read := pieces_append_lineFeed (endsWithText_of_spans closed) b
  have behind : spansFrom (size a + 1) b.pieces = b.spans.map (Span.shift (size a + 1)) :=
    spansFrom_add (size a + 1) 0 b.pieces
  rw [spans, read, spansFrom_append, spell_pieces, Nat.zero_add, spansFrom, ← behind]
  rfl

/-! ### Lines scanned alone -/

/-- The pieces in the middle of a text are scanned alone as they are there. -/
theorem isIgnored_spell_part {t : Text} {ps qs rs : List Piece}
    (split : t.pieces = ps ++ (qs ++ rs)) {i : Nat} (inside : i < size (spell qs)) :
    (spell qs).isIgnored i = t.isIgnored (size (spell ps) + i) := by
  have own : pieces (spell qs) = qs :=
    pieces_spell_part ⟨ps, rs, by rw [split, List.append_assoc]⟩
  have whole : t.spans = spansFrom 0 ps ++ ((spell qs).spans.map (Span.shift (size (spell ps))) ++
      spansFrom (size (spell ps) + size (spell qs)) rs) := by
    rw [spans, split, spansFrom_append, spansFrom_append, Nat.zero_add, spans, own, ← spansFrom_add]
    rfl
  rw [Bool.eq_iff_iff, isIgnored_iff, isIgnored_iff, whole]
  constructor
  · rintro ⟨span, member, holds⟩
    refine ⟨span.shift _, ?_, (Span.contains_shift _ _ _).trans holds⟩
    exact List.mem_append_right _ (List.mem_append_left _ (List.mem_map_of_mem member))
  · rintro ⟨span, member, holds⟩
    have bounds := Span.contains_iff.mp holds
    rcases List.mem_append.mp member with early | rest
    · have := (bounds_of_mem_spansFrom early).2
      omega
    · rcases List.mem_append.mp rest with middle | late
      · obtain ⟨span, listed, rfl⟩ := List.mem_map.mp middle
        exact ⟨span, listed, (Span.contains_shift _ _ _).symm.trans holds⟩
      · have := (bounds_of_mem_spansFrom late).1
        omega

/-- A blank at the end of a text makes nothing before it code, and no code a literal. -/
theorem isIgnored_concat_blank (t : Text) {c : Char} (blank : isBlank c = true) {i : Nat}
    (inside : i < size t) : (t ++ [c]).isIgnored i = t.isIgnored i := by
  rw [Bool.eq_iff_iff, isIgnored_iff, isIgnored_iff, spans, spans]
  rcases pieces_concat_blank t blank with read | ⟨before, kind, body, closed, read, read'⟩
  · rw [read, spansFrom_append]
    simp [spansFrom]
  · have length : size t = size (spell before) + size body := by
      rw [← spell_pieces t, read, spell_append, size_append]
      simp [Piece.text]
    -- The last span is longer by the blank.
    rw [read, read', spansFrom_append, spansFrom_append]
    simp only [spansFrom, List.mem_append, List.mem_singleton, or_and_right, exists_or,
      exists_eq_left, Span.contains_iff, size_append, size_cons, size_nil]
    refine or_congr Iff.rfl ?_
    omega

/-- How a line of a text reads alone: it is found at its start, and exactly what the scan of the
text ignores there is ignored, so its code is what the scan of the text leaves. -/
structure ReadsAlone (t : Text) (number : Nat) (line : Text) (start : Nat) : Prop where
  listed : t.lineOffsets[number - 1]? = some start
  holds : t.SlicesTo (start, start + size line) line
  ignored : ∀ i < size line, line.isIgnored i = t.isIgnored (start + i)
  code : line.code = line.indexed.filter fun place => !t.isIgnored (start + place.1)

private theorem CommentFree.exists_readsAlone {t : Text} (free : t.CommentFree) {n : Nat}
    {line : Text} (member : (n, line) ∈ t.numberedLines) : ∃ start, t.ReadsAlone n line start := by
  obtain ⟨⟨own, i⟩, indexed, same⟩ := List.mem_map.mp member
  cases same
  obtain ⟨part, found, ended⟩ :=
    exists_part_of_getElem?_linesOfParts (List.mk_mem_zipIdx_iff_getElem?.mp indexed)
  obtain ⟨before, after, rfl, rfl, starts, ends, inLine⟩ := exists_of_getElem?_splitOn found
  have within : (before ++ (part ++ after)).CommentsWithin (lineAfter before) := by
    rw [CommentsWithin, free.comments_eq_nil]
    exact List.forall_mem_nil _
  obtain ⟨ps, qs, rs, split, rfl, rfl, -⟩ := exists_pieces_of_line inLine starts ends within
  have part : ∀ i < size line, line.isIgnored i =
      (spell ps ++ (spell qs ++ after)).isIgnored (size (spell ps) + i) := by
    intro i inside
    rcases ended with rfl | ended
    · exact isIgnored_spell_part split inside
    · rw [← isIgnored_spell_part split (by rw [ended, size_append]; omega), ended]
      exact (isIgnored_concat_blank line (by decide) inside).symm
  refine ⟨size (spell ps), getElem?_lineOffsets starts _, ?_, part, ?_⟩
  · rcases ended with rfl | ended
    · exact slicesTo_append _ _ _
    · rw [ended, List.append_assoc]
      exact slicesTo_append _ _ _
  · rw [code_eq_filter]
    refine List.filter_congr fun place listed => ?_
    have bound := le_of_mem_indexedFrom listed
    have positive := place.2.utf8Size_pos
    rw [part place.1 (by omega)]

/-- **Scanning goes line by line.** A scan starts anew behind a line feed unless a block comment is
open; so each line of a text without comments reads alone as it reads in the text. -/
theorem scans_linewise {a : Text}
    (closed : ∀ span ∈ a.spans, span.kind = .comment → span.closed = true) (b t : Text) :
    spans (a ++ '\n' :: b) = a.spans ++ b.spans.map (Span.shift (size a + 1)) ∧
      ∀ n line, (n, line) ∈ t.withoutComments.numberedLines →
        ∃ start, t.withoutComments.ReadsAlone n line start :=
  ⟨spans_append_lineFeed closed b,
    fun _ _ member => (commentFree_withoutComments t).exists_readsAlone member⟩

/-- A literal that ends in a backslash does not go on over the line feed, and a line that loses a
carriage return reads as it does with it. -/
theorem scans_linewise_of_backslash :
    spans ("s = \"c:\\" ++ '\n' :: "'x' /") =
      [⟨4, 8, .string, false⟩, ⟨9, 12, .character, true⟩] ∧
    (2, ("g(')', \"\\" : Text)) ∈
      numberedLines (withoutComments "f(\"(\r\n/* ( */g(')', \"\\\r\n)") ∧
    ∃ start, ReadsAlone (withoutComments "f(\"(\r\n/* ( */g(')', \"\\\r\n)") 2 "g(')', \"\\"
      start := by
  have all := scans_linewise (a := "s = \"c:\\") (by decide +kernel) "'x' /"
    "f(\"(\r\n/* ( */g(')', \"\\\r\n)"
  exact ⟨all.1.trans (by decide +kernel), by decide +kernel, all.2 2 _ (by decide +kernel)⟩

end Text

end ScriptLoom
