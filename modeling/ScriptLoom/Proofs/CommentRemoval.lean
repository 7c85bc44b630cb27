import ScriptLoom.Proofs.Places

/-! # What taking comments out keeps

A text without its comments is the same text less the bytes of its comments: no comment is left,
the literals are those of before, and every other byte stays, in order and on its line, as do the
line feeds inside comments (`Text.uncomments_withoutComments`). The bytes of a text are followed
piece by piece; a byte lies in a comment exactly if its piece is one
(`Text.any_contains_comments`).
-/

namespace ScriptLoom

/-! ### What a piece leaves -/

/-- The literal of a piece: its text, its kind and whether it is closed. -/
def Piece.literal? : Piece → Option (Text × Region × Bool)
  | .code _ => none
  | .region .comment _ _ => none
  | .region kind body closed => some (body, kind, closed)

/-- A region that is no comment is of another kind. -/
theorem Piece.ne_comment_of_isComment {kind : Region} {body : Text} {closed : Bool}
    (free : (Piece.region kind body closed).isComment = false) : kind ≠ .comment := by
  rintro rfl
  cases free

/-- A region that is no comment is a literal. -/
theorem Piece.literal?_region {kind : Region} {body : Text} {closed : Bool}
    (literal : kind ≠ .comment) :
    (Piece.region kind body closed).literal? = some (body, kind, closed) := by
  cases kind with
  | comment => exact absurd rfl literal
  | string | character => rfl

/-- Without comments a piece holds the literals that it held. -/
theorem filterMap_literal?_stripped (p : Piece) :
    p.stripped.filterMap Piece.literal? = p.literal?.toList := by
  rcases p with c | ⟨kind, body, closed⟩
  · rfl
  · cases kind with
    | comment =>
      rw [Piece.stripped, List.filterMap_map]
      exact List.filterMap_eq_nil_iff.mpr fun c _ => rfl
    | string => rfl
    | character => rfl

/-- A comment is replaced by its line feeds, and other pieces stay. -/
theorem withoutComment_eq (p : Piece) :
    p.withoutComment = if p.isComment then p.text.filter (· = '\n') else p.text := by
  rcases p with c | ⟨kind, body, closed⟩
  · rfl
  · cases kind <;> rfl

/-- A comment keeps its line feeds. -/
theorem count_withoutComment (p : Piece) :
    p.withoutComment.count '\n' = p.text.count '\n' := by
  rw [withoutComment_eq]
  split
  · exact List.count_filter (by simp)
  · rfl

namespace Text

/-- A byte of a piece lies in a comment exactly if the piece is one. -/
theorem any_contains_comments {t : Text} {before after : List Piece} {p : Piece}
    (split : t.pieces = before ++ p :: after) {i : Nat} (reached : size (spell before) ≤ i)
    (inside : i < size (spell before) + size p.text) :
    t.comments.any (·.contains i) = p.isComment := by
  have parts : t.spans = spansFrom 0 before ++ (spansFrom (size (spell before)) [p] ++
      spansFrom (size (spell before) + size p.text) after) := by
    rw [spans, split, spansFrom_append, ← List.singleton_append, spansFrom_append, Nat.zero_add]
    simp [spell]
  have none : ∀ spans : List Span, (∀ span ∈ spans, span.stop ≤ i ∨ i < span.start) →
      spans.any (fun span => decide (span.kind = .comment) && span.contains i) = false := by
    intro spans outside
    rw [List.any_eq_false]
    intro span member
    have := outside span member
    simp only [Span.contains, Bool.and_eq_true, decide_eq_true_eq]
    omega
  have earlier := none (spansFrom 0 before) fun span member => by
    have := bounds_of_mem_spansFrom member
    omega
  have later := none (spansFrom (size (spell before) + size p.text) after) fun span member => by
    have := bounds_of_mem_spansFrom member
    omega
  have own : (spansFrom (size (spell before)) [p]).any
      (fun span => decide (span.kind = .comment) && span.contains i) = p.isComment := by
    rcases p with c | ⟨kind, body, closed⟩
    · rfl
    · have held : Span.contains ⟨size (spell before), size (spell before) + size body, kind,
          closed⟩ i = true := by
        simp only [Piece.text] at inside
        simp only [Span.contains, Bool.and_eq_true, decide_eq_true_eq]
        omega
      cases kind <;> simp [spansFrom, held, Piece.isComment]
  rw [comments, List.any_filter, parts, List.any_append, List.any_append, earlier, own, later,
    Bool.false_or, Bool.or_false]

/-- A literal of a text at its span: its text, its kind and whether it is closed. -/
def literalAt (t : Text) (span : Span) : Text × Region × Bool :=
  (t.slice span.start span.stop, span.kind, span.closed)

/-- The literals of a text are those among its pieces. -/
theorem map_literalAt_literals (t : Text) :
    t.literals.map t.literalAt = t.pieces.filterMap Piece.literal? := by
  suffices from_place : ∀ ps before, t = before ++ spell ps →
      ((spansFrom (size before) ps).filter (·.kind ≠ .comment)).map t.literalAt =
        ps.filterMap Piece.literal? from
    from_place t.pieces [] (by simp)
  intro ps
  induction ps with
  | nil => exact fun _ _ => rfl
  | cons p ps ih =>
    intro before whole
    have rest := ih (before ++ p.text) (by rw [whole]; simp)
    rw [size_append] at rest
    rcases p with c | ⟨kind, body, closed⟩
    · exact rest
    · have text : t.slice (size before) (size before + size body) = body := by
        rw [whole]
        exact slice_append before body (spell ps)
      rw [Piece.text] at rest
      cases kind with
      | comment => exact rest
      | string => simpa [spansFrom, Piece.literal?, literalAt, text] using rest
      | character => simpa [spansFrom, Piece.literal?, literalAt, text] using rest

/-- A text that is free of comments lists none. -/
theorem CommentFree.comments_eq_nil {t : Text} (free : t.CommentFree) : t.comments = [] := by
  suffices from_place : ∀ ps start, (∀ p ∈ ps, p.isComment = false) →
      (spansFrom start ps).filter (·.kind = .comment) = [] from
    from_place t.pieces 0 free
  intro ps
  induction ps with
  | nil => exact fun _ _ => rfl
  | cons p ps ih =>
    intro start other
    obtain ⟨first, later⟩ := List.forall_mem_cons.mp other
    rcases p with c | ⟨kind, body, closed⟩
    · exact ih _ later
    · have kept : kind ≠ .comment := by
        rintro rfl
        cases first
      rw [spansFrom, List.filter_cons_of_neg (by simpa using kept)]
      exact ih _ later

/-! ### The bytes of a character -/

/-- The bytes of a wide character are no ASCII bytes. -/
theorem le_of_mem_utf8EncodeChar {c : Char} (wide : c.utf8Size ≠ 1) {byte : UInt8}
    (member : byte ∈ String.utf8EncodeChar c) : 128 ≤ byte.toNat := by
  have large : ¬c.val.toNat ≤ 127 := by
    rwa [ne_eq, Char.utf8Size_eq_one_iff, UInt32.le_iff_toNat_le] at wide
  unfold String.utf8EncodeChar at member
  simp only at member
  rw [if_neg large] at member
  split at member
  · simp only [List.mem_cons, List.not_mem_nil, or_false] at member
    rcases member with rfl | rfl <;> rw [UInt8.toNat_ofNat'] <;> omega
  · split at member <;> simp only [List.mem_cons, List.not_mem_nil, or_false] at member
    · rcases member with rfl | rfl | rfl <;> rw [UInt8.toNat_ofNat'] <;> omega
    · rcases member with rfl | rfl | rfl | rfl <;> rw [UInt8.toNat_ofNat'] <;> omega

/-- A character of one byte is that byte. -/
theorem toNat_toUInt8 {c : Char} (ascii : c.utf8Size = 1) : c.toUInt8.toNat = c.toNat := by
  rw [Char.utf8Size_eq_one_iff, UInt32.le_iff_toNat_le] at ascii
  have small : c.val.toNat ≤ 127 := ascii
  rw [← Char.toUInt8_val, UInt32.toNat_toUInt8]
  exact Nat.mod_eq_of_lt (by omega)

/-- The byte of an ASCII character is a byte of no other character. -/
theorem toUInt8_mem_utf8EncodeChar_iff {c d : Char} (ascii : d.utf8Size = 1) :
    d.toUInt8 ∈ String.utf8EncodeChar c ↔ c = d := by
  constructor
  · intro member
    by_cases narrow : c.utf8Size = 1
    · rw [String.utf8EncodeChar_eq_singleton narrow, List.mem_singleton, Char.toUInt8_val] at member
      have same := congrArg UInt8.toNat member
      rw [toNat_toUInt8 ascii, toNat_toUInt8 narrow] at same
      exact Char.toNat_inj.mp same.symm
    · have large := le_of_mem_utf8EncodeChar narrow member
      rw [Char.utf8Size_eq_one_iff, UInt32.le_iff_toNat_le] at ascii
      have small : d.toUInt8.toNat ≤ 127 := by
        rw [toNat_toUInt8 (Char.utf8Size_eq_one_iff.mpr (UInt32.le_iff_toNat_le.mpr ascii))]
        exact ascii
      omega
  · rintro rfl
    rw [String.utf8EncodeChar_eq_singleton ascii]
    exact List.mem_singleton_self _

/-! ### Bytes on their lines -/

/-- The bytes of a text in UTF-8. -/
def bytes (t : Text) : List UInt8 :=
  t.flatMap String.utf8EncodeChar

/-- The bytes of a text, each with the number of its line, the first line having a given number. -/
def linedBytes (line : Nat) : Text → List (UInt8 × Nat)
  | [] => []
  | c :: t =>
    (String.utf8EncodeChar c).map (·, line) ++ linedBytes (line + if c = '\n' then 1 else 0) t

private theorem linedBytes_append (line : Nat) (s t : Text) :
    linedBytes line (s ++ t) = linedBytes line s ++ linedBytes (line + s.count '\n') t := by
  induction s generalizing line with
  | nil => rfl
  | cons c s ih =>
    rw [List.cons_append, linedBytes, linedBytes, ih, List.append_assoc, List.count_cons]
    by_cases feed : c = '\n' <;> simp [feed, Nat.add_assoc, Nat.add_comm 1]

/-- The bytes of two texts come one after the other. -/
theorem bytes_append (s t : Text) : bytes (s ++ t) = bytes s ++ bytes t :=
  List.flatMap_append

/-- A text has as many bytes as its size says. -/
@[simp]
theorem length_bytes (t : Text) : t.bytes.length = size t := by
  induction t with
  | nil => rfl
  | cons c t ih =>
    rw [bytes, List.flatMap_cons, List.length_append, String.length_utf8EncodeChar, size_cons,
      ← ih]
    rfl

/-- The bytes of a part of a text with their lines. -/
theorem map_lineNumberAt_zipIdx (before t after : Text) :
    ((bytes t).zipIdx (size before)).map
        (fun (byte, i) => (byte, (before ++ (t ++ after)).lineNumberAt i)) =
      linedBytes (lineAfter before) t := by
  induction t generalizing before with
  | nil => rfl
  | cons c t ih =>
    have rest := ih (before ++ [c])
    have first : ((String.utf8EncodeChar c).zipIdx (size before)).map
        (fun (byte, i) => (byte, (before ++ c :: (t ++ after)).lineNumberAt i)) =
          (String.utf8EncodeChar c).map (·, lineAfter before) := by
      conv_rhs => rw [← List.zipIdx_map_fst (size before) (String.utf8EncodeChar c), List.map_map]
      apply List.map_congr_left
      rintro ⟨byte, i⟩ member
      obtain ⟨low, high, -⟩ := List.mem_zipIdx member
      rw [String.length_utf8EncodeChar] at high
      have line := lineNumberAt_append_cons before (t ++ after) (c := c) (k := i - size before)
        (by omega)
      rw [Nat.add_sub_cancel' low] at line
      exact congrArg (byte, ·) line
    have number : lineAfter (before ++ [c]) = lineAfter before + if c = '\n' then 1 else 0 := by
      rw [lineAfter_append, List.count_singleton]
      simp
    rw [number, size_append, size_cons, size_nil, Nat.add_zero, List.append_assoc,
      List.singleton_append] at rest
    rw [bytes, List.flatMap_cons, List.zipIdx_append, List.map_append, List.cons_append, first,
      String.length_utf8EncodeChar]
    exact congrArg (_ ++ ·) rest

/-- Of the bytes of a text, those of line feeds are the line feeds of the text. -/
theorem filter_linedBytes (line : Nat) (t : Text) :
    (linedBytes line t).filter (·.1 = 10) = linedBytes line (t.filter (· = '\n')) := by
  induction t generalizing line with
  | nil => rfl
  | cons c t ih =>
    rw [linedBytes, List.filter_append, ih]
    by_cases feed : c = '\n'
    · subst feed
      rfl
    · have none : ((String.utf8EncodeChar c).map (·, line)).filter (·.1 = 10) = [] := by
        rw [List.filter_eq_nil_iff]
        intro pair member
        obtain ⟨byte, encoded, rfl⟩ := List.mem_map.mp member
        rw [decide_eq_true_eq]
        rintro rfl
        exact feed ((toUInt8_mem_utf8EncodeChar_iff (d := '\n') rfl).mp encoded)
      rw [none, List.filter_cons_of_neg (by simpa using feed), if_neg feed, List.nil_append,
        Nat.add_zero]

/-! ### The bytes that stay -/

/-- Whether the byte at an offset stays when the comments of a text go: it stands outside of them,
or is a line feed. -/
def stays (t : Text) (byte : UInt8 × Nat) : Bool :=
  byte.1 = 10 || !t.comments.any (·.contains byte.2)

/-- The bytes of a piece that stay, with their lines. -/
theorem map_filter_stays {t : Text} {before after : List Piece} {p : Piece}
    (split : t.pieces = before ++ p :: after) :
    (((bytes p.text).zipIdx (size (spell before))).filter t.stays).map
        (fun (byte, i) => (byte, t.lineNumberAt i)) =
      linedBytes (lineAfter (spell before)) p.withoutComment := by
  have whole : t = spell before ++ (p.text ++ spell after) := by
    rw [← spell_pieces t, split, spell_append, spell_cons]
  have lined := map_lineNumberAt_zipIdx (spell before) p.text (spell after)
  rw [← whole] at lined
  have own : ∀ byte ∈ (bytes p.text).zipIdx (size (spell before)),
      t.stays byte = (decide (byte.1 = 10) || !p.isComment) := by
    rintro ⟨byte, i⟩ member
    obtain ⟨low, high, -⟩ := List.mem_zipIdx member
    rw [length_bytes] at high
    rw [stays, any_contains_comments split low high]
  rw [List.filter_congr own, withoutComment_eq]
  cases p.isComment with
  | true =>
    rw [if_pos rfl, ← filter_linedBytes, ← lined, List.filter_map]
    simp only [Bool.not_true, Bool.or_false, Function.comp_def]
  | false => simp only [Bool.not_false, Bool.or_true, List.filter_true, lined, Bool.false_eq_true,
      if_false]

/-- A text less the bytes of its comments but for their line feeds. -/
structure Uncomments (t s : Text) : Prop where
  comments : s.comments = []
  literals : s.literals.map s.literalAt = t.literals.map t.literalAt
  bytes : s.bytes.zipIdx.map (fun (byte, i) => (byte, s.lineNumberAt i)) =
    (t.bytes.zipIdx.filter t.stays).map (fun (byte, i) => (byte, t.lineNumberAt i))

private theorem map_filter_stays_bytes (t : Text) :
    (t.bytes.zipIdx.filter t.stays).map (fun (byte, i) => (byte, t.lineNumberAt i)) =
      linedBytes 1 t.withoutComments := by
  -- Along the pieces, from the first one that is left.
  suffices from_place : ∀ ps before, t.pieces = before ++ ps →
      (((bytes (spell ps)).zipIdx (size (spell before))).filter t.stays).map
          (fun (byte, i) => (byte, t.lineNumberAt i)) =
        linedBytes (lineAfter (spell before)) (ps.flatMap Piece.withoutComment) by
    have whole := from_place t.pieces [] rfl
    rwa [spell_pieces] at whole
  intro ps
  induction ps with
  | nil => exact fun _ _ => rfl
  | cons p ps ih =>
    intro before split
    have rest := ih (before ++ [p]) (by rw [split, List.append_assoc, List.singleton_append])
    have spelled : spell (before ++ [p]) = spell before ++ p.text := by
      rw [spell_append, spell_cons, spell_nil, List.append_nil]
    rw [spelled, size_append, lineAfter_append, ← count_withoutComment] at rest
    rw [spell_cons, bytes_append, List.zipIdx_append, List.filter_append, List.map_append,
      map_filter_stays split, length_bytes, rest, List.flatMap_cons, linedBytes_append]

/-- Taking the comments out of a text leaves the text less the bytes of its comments but for their
line feeds, and taking them out again changes nothing. -/
theorem uncomments_withoutComments (t : Text) :
    t.Uncomments t.withoutComments ∧ t.withoutComments.withoutComments = t.withoutComments := by
  have free := commentFree_withoutComments t
  refine ⟨⟨free.comments_eq_nil, ?_, ?_⟩, free.withoutComments_eq⟩
  · rw [map_literalAt_literals, map_literalAt_literals, pieces_withoutComments,
      List.filterMap_flatMap]
    simp only [filterMap_literal?_stripped, ← List.filterMap_eq_flatMap_toList]
  · have lined := map_lineNumberAt_zipIdx [] t.withoutComments []
    rw [List.append_nil] at lined
    exact lined.trans (map_filter_stays_bytes t).symm

end Text

end ScriptLoom
