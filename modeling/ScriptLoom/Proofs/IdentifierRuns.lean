import ScriptLoom.Proofs.NameRuns
import ScriptLoom.Proofs.SpanLookup

/-! # Identifiers are whole runs

A run is a longest stretch of bytes of identifier characters, whatever it belongs to
(`Text.IsRun`). No comment or literal begins or ends inside of a run: it begins with a quote or a
slash, and it ends with one or where its line or the text ends. So a run lies in one span or outside
of all (`Text.IsRun.of_contains`), and its first byte tells which. The identifiers of a text are the
runs outside of all spans that do not start with a digit, in order (`Text.runsApart`).
-/

namespace ScriptLoom

namespace Text

/-! ### Bytes of a class -/

section Class

variable {p : Char → Bool}

/-- Whether the byte at an offset is that of a character of a class. -/
def isAt (p : Char → Bool) (t : Text) (i : Nat) : Bool :=
  t.bytes[i]?.any (byteIn p)

variable (narrow : ∀ c, p c = true → c.utf8Size = 1)

include narrow

private theorem isAt_char (u v : Text) {c : Char} {k : Nat} (inside : k < c.utf8Size) :
    isAt p (u ++ c :: v) (size u + k) = p c := by
  have bound : k < (String.utf8EncodeChar c).length := by
    rwa [String.length_utf8EncodeChar]
  have byte : (bytes (u ++ c :: v))[size u + k]? =
      some ((String.utf8EncodeChar c).get ⟨k, bound⟩) := by
    rw [bytes_append, ← length_bytes, List.getElem?_append_right (Nat.le_add_right _ _),
      Nat.add_sub_cancel_left, bytes, List.flatMap_cons, List.getElem?_append_left bound]
    exact List.getElem?_eq_getElem bound
  rw [isAt, byte]
  exact byteIn_of_mem narrow (List.get_mem _ _)

private theorem isAt_append (u v : Text) : isAt p (u ++ v) (size u) = v.head?.any p := by
  cases v with
  | nil => simp [isAt]
  | cons c v => exact isAt_char narrow u v c.utf8Size_pos

private theorem isAt_before {u : Text} (nonempty : u ≠ []) (v : Text) :
    isAt p (u ++ v) (size u - 1) = u.getLast?.any p := by
  rcases List.eq_nil_or_concat u with rfl | ⟨u, c, rfl⟩
  · exact absurd rfl nonempty
  · have positive := c.utf8Size_pos
    have place : size (u ++ [c]) - 1 = size u + (c.utf8Size - 1) := by
      rw [size_append, size_cons, size_nil]
      omega
    rw [List.concat_eq_append, place, List.append_assoc, List.getLast?_concat]
    exact isAt_char narrow u v (by omega)

/-- A byte of the class is a whole character. -/
theorem exists_of_isAt {t : Text} {i : Nat} (found : isAt p t i = true) :
    ∃ u v, t = u ++ v ∧ i = size u := by
  induction t generalizing i with
  | nil => simp [isAt, bytes] at found
  | cons c t ih =>
    by_cases inside : i < c.utf8Size
    · have own : isAt p (c :: t) (0 + i) = p c := isAt_char narrow [] t inside
      rw [Nat.zero_add, found] at own
      have single := narrow c own.symm
      exact ⟨[], c :: t, rfl, by rw [size_nil]; omega⟩
    · have later : isAt p (c :: t) i = isAt p t (i - c.utf8Size) := by
        rw [isAt, bytes, List.flatMap_cons, List.getElem?_append_right (by simpa using inside),
          String.length_utf8EncodeChar]
        rfl
      obtain ⟨u, v, rfl, place⟩ := ih (later ▸ found)
      exact ⟨c :: u, v, rfl, by rw [size_cons]; omega⟩

private theorem isAt_of_forall (u v : Text) {run : Text} (all : ∀ c ∈ run, p c = true) {k : Nat}
    (inside : k < size run) : isAt p (u ++ (run ++ v)) (size u + k) = true := by
  induction run generalizing u k with
  | nil => cases inside
  | cons c run ih =>
    obtain ⟨first, later⟩ := List.forall_mem_cons.mp all
    rw [List.cons_append]
    by_cases own : k < c.utf8Size
    · rw [isAt_char narrow u _ own, first]
    · have rest := ih (u ++ [c]) later (k := k - c.utf8Size) (by rw [size_cons] at inside; omega)
      have place : size (u ++ [c]) + (k - c.utf8Size) = size u + k := by
        rw [size_append, size_cons, size_nil]
        omega
      rwa [place, List.append_assoc] at rest

end Class

/-! ### Runs -/

private theorem utf8Size_of_isDigit (c : Char) (digit : c.isDigit = true) : c.utf8Size = 1 :=
  utf8Size_of_isIdentChar <|
    Bool.or_eq_true_iff.mpr (.inl (Bool.or_eq_true_iff.mpr (.inl (Bool.or_eq_true_iff.mpr
      (.inr digit)))))

/-- Whether the bytes from one offset up to another are those of identifier characters, and the
bytes around them are not. -/
structure IsRun (t : Text) (start stop : Nat) : Prop where
  nonempty : start < stop
  chars : ∀ i, start ≤ i → i < stop → isAt isIdentChar t i = true
  starts : start = 0 ∨ isAt isIdentChar t (start - 1) = false
  ends : isAt isIdentChar t stop = false

variable {t : Text} {start stop : Nat}

/-- A run is a part of a text between characters. -/
theorem IsRun.exists_parts (run : t.IsRun start stop) :
    ∃ u name v, t = u ++ (name ++ v) ∧ start = size u ∧ stop = size u + size name ∧ name ≠ [] ∧
      (∀ c ∈ name, isIdentChar c = true) ∧ u.getLast?.any isIdentChar = false ∧
      v.head?.any isIdentChar = false := by
  have narrow : ∀ c, isIdentChar c = true → c.utf8Size = 1 := fun _ => utf8Size_of_isIdentChar
  have positive := run.nonempty
  obtain ⟨u, w, rfl, rfl⟩ := exists_of_isAt narrow (run.chars start (Nat.le_refl _) positive)
  have whole : w.takeWhile isIdentChar ++ w.dropWhile isIdentChar = w :=
    List.takeWhile_append_dropWhile
  have all : ∀ c ∈ w.takeWhile isIdentChar, isIdentChar c = true :=
    fun c => List.mem_takeWhile_imp
  have none : (w.dropWhile isIdentChar).head?.any isIdentChar = false := by
    have other := List.head?_dropWhile_not isIdentChar w
    cases first : (w.dropWhile isIdentChar).head? with
    | none => rfl
    | some c => simpa [first] using other
  -- The run stops neither before its characters end nor behind them.
  have stops : stop = size u + size (w.takeWhile isIdentChar) := by
    rcases Nat.lt_trichotomy stop (size u + size (w.takeWhile isIdentChar)) with
      less | same | more
    · have inside := isAt_of_forall narrow u (w.dropWhile isIdentChar) all
        (k := stop - size u) (by omega)
      rw [whole, Nat.add_sub_cancel' positive.le, run.ends] at inside
      cases inside
    · exact same
    · have behind := isAt_append narrow (u ++ w.takeWhile isIdentChar) (w.dropWhile isIdentChar)
      rw [List.append_assoc, whole, size_append, run.chars _ (by omega) more, none] at behind
      cases behind
  refine ⟨u, _, _, by rw [whole], rfl, stops, ?_, all, ?_, none⟩
  · intro empty
    rw [stops, empty, size_nil] at positive
    omega
  · by_cases first : u = []
    · rw [first]
      rfl
    · have before := run.starts.resolve_left (ne_zero_size first)
      rwa [isAt_before narrow first] at before

private theorem isRun_append {u name v : Text} (nonempty : name ≠ [])
    (all : ∀ c ∈ name, isIdentChar c = true) (before : u.getLast?.any isIdentChar = false)
    (behind : v.head?.any isIdentChar = false) :
    IsRun (u ++ (name ++ v)) (size u) (size u + size name) := by
  have narrow : ∀ c, isIdentChar c = true → c.utf8Size = 1 := fun _ => utf8Size_of_isIdentChar
  have positive := ne_zero_size nonempty
  refine ⟨by omega, fun i low high => ?_, ?_, ?_⟩
  · have inside := isAt_of_forall narrow u v all (k := i - size u) (by omega)
    rwa [Nat.add_sub_cancel' low] at inside
  · by_cases first : u = []
    · exact .inl (by rw [first, size_nil])
    · exact .inr ((isAt_before narrow first _).trans before)
  · rw [← size_append, ← List.append_assoc, isAt_append narrow]
    exact behind

/-! ### Runs and spans -/

variable {span : Span}

/-- No run goes on where a span starts. -/
theorem isAt_start_of_mem_spans (member : span ∈ t.spans) :
    isAt isIdentChar t span.start = false := by
  obtain ⟨before, body, after, rfl, start, -, delimited⟩ := t.lexedFrom_spans.regions span member
  have opens := opensRegion_of_wellFormed (delimited_iff.mp delimited).1 after
  rw [start, isAt_append fun _ => utf8Size_of_isIdentChar]
  rcases opens with quote | quote | ⟨rest, same⟩ | ⟨rest, same⟩
  · rw [quote]
    rfl
  · rw [quote]
    rfl
  · rw [← same]
    rfl
  · rw [← same]
    rfl

private theorem LineEnds.any_head? {s : Text}
    (ends : s.LineEnds) : s.head?.any isIdentChar = false := by
  rcases ends with rfl | feed
  · rfl
  · rw [feed]
    rfl

private theorem isIdentChar_of_ofQuote? {quote : Char} {kind : Region}
    (opens : Region.ofQuote? quote = some kind) : isIdentChar quote = false := by
  unfold Region.ofQuote? at opens
  split at opens
  · next same => rw [same]; rfl
  · split at opens
    · next same => rw [same]; rfl
    · cases opens

/-- A region ends with a character that is in no identifier, or where its line or the text ends. -/
theorem Delimited.any_getLast? {kind : Region} {body rest : Text} {closed : Bool}
    (delimited : Delimited kind body closed rest) :
    body.getLast?.any isIdentChar = false ∨ rest.head?.any isIdentChar = false := by
  cases delimited with
  | line inLine stops => exact .inr stops.any_head?
  | @block body _ _ stops runs =>
    cases closed with
    | true =>
      obtain ⟨front, -, same⟩ := stops.stops rfl
      have last : ('/' :: '*' :: body).getLast? = some '/' := by
        rw [show body = front ++ ['*', '/'] from same]
        exact List.getLast?_append_of_ne_nil ('/' :: '*' :: front) (by simp)
      exact .inl (by rw [last]; rfl)
    | false => exact .inr (by rw [runs rfl]; rfl)
  | @literal quote _ body _ _ opens inLine stops runs =>
    cases closed with
    | true =>
      obtain ⟨front, -, same⟩ := stops.stops rfl
      have last : (quote :: body).getLast? = some quote := by
        rw [show body = front ++ [quote] from same]
        exact List.getLast?_append_of_ne_nil (quote :: front) (by simp)
      exact .inl (by rw [last]; exact isIdentChar_of_ofQuote? opens)
    | false => exact .inr (runs rfl).any_head?

/-- No run goes on over the end of a span. -/
theorem isAt_stop_of_mem_spans (member : span ∈ t.spans) :
    isAt isIdentChar t (span.stop - 1) = false ∨ isAt isIdentChar t span.stop = false := by
  obtain ⟨before, body, after, rfl, -, stop, delimited⟩ := t.lexedFrom_spans.regions span member
  have nonempty : body ≠ [] := (delimited_iff.mp delimited).1.text_ne_nil
  rw [stop, ← size_append, ← List.append_assoc, isAt_append fun _ => utf8Size_of_isIdentChar,
    isAt_before (fun _ => utf8Size_of_isIdentChar) (List.append_ne_nil_of_right_ne_nil _ nonempty),
    List.getLast?_append_of_ne_nil _ nonempty]
  exact delimited.any_getLast?

/-- A span that holds one byte of a run holds the whole run. -/
theorem IsRun.of_contains (run : t.IsRun start stop) (member : span ∈ t.spans) {i : Nat}
    (low : start ≤ i) (high : i < stop) (holds : span.contains i = true) :
    span.start < start ∧ stop ≤ span.stop := by
  have bounds := Span.contains_iff.mp holds
  constructor
  · by_contra inRun
    have char := run.chars span.start (by omega) (by omega)
    rw [isAt_start_of_mem_spans member] at char
    cases char
  · by_contra inRun
    have last := run.chars (span.stop - 1) (by omega) (by omega)
    have next := run.chars span.stop (by omega) (by omega)
    rcases isAt_stop_of_mem_spans member with other | other
    · rw [other] at last
      cases last
    · rw [other] at next
      cases next

/-- Whether the bytes from one offset up to another lie in one span. -/
def WithinSpan (t : Text) (start stop : Nat) : Prop :=
  ∃ span ∈ t.spans, ∀ i, start ≤ i → i < stop → span.contains i = true

/-- Whether the bytes from one offset up to another lie in no span. -/
def OutsideSpans (t : Text) (start stop : Nat) : Prop :=
  ∀ span ∈ t.spans, ∀ i, start ≤ i → i < stop → span.contains i = false

private theorem OutsideSpans.isIgnored (outside : t.OutsideSpans start stop) {i : Nat}
    (low : start ≤ i) (high : i < stop) : t.isIgnored i = false := by
  refine Bool.eq_false_iff.mpr fun ignored => ?_
  obtain ⟨span, member, holds⟩ := isIgnored_iff.mp ignored
  rw [outside span member i low high] at holds
  cases holds

/-- The first byte of a run tells where the run lies. -/
theorem IsRun.isIgnored_cases (run : t.IsRun start stop) :
    t.isIgnored start = true ∧ t.WithinSpan start stop ∨
      t.isIgnored start = false ∧ t.OutsideSpans start stop := by
  cases ignored : t.isIgnored start with
  | true =>
    obtain ⟨span, member, holds⟩ := isIgnored_iff.mp ignored
    obtain ⟨before, behind⟩ := run.of_contains member (Nat.le_refl _) run.nonempty holds
    exact .inl ⟨rfl, span, member, fun i low high => Span.contains_iff.mpr (by omega)⟩
  | false =>
    refine .inr ⟨rfl, fun span member i low high => Bool.eq_false_iff.mpr fun holds => ?_⟩
    obtain ⟨before, behind⟩ := run.of_contains member low high holds
    have nonempty := run.nonempty
    have first : t.isIgnored start = true :=
      isIgnored_iff.mpr ⟨span, member, Span.contains_iff.mpr (by omega)⟩
    rw [ignored] at first
    cases first

private theorem IsRun.isIgnored_iff (run : t.IsRun start stop) :
    t.isIgnored start = false ↔ t.OutsideSpans start stop := by
  constructor
  · intro first
    rcases run.isIgnored_cases with ⟨ignored, -⟩ | ⟨-, outside⟩
    · rw [first] at ignored
      cases ignored
    · exact outside
  · intro outside
    exact outside.isIgnored (Nat.le_refl _) run.nonempty

/-! ### Identifiers -/

/-- Characters that lie in no span are pieces of code. -/
theorem exists_map_code_of_outside {done ps : List Piece} {run v : Text}
    (split : t.pieces = done ++ ps) (spelled : spell ps = run ++ v)
    (outside : ∀ i, size (spell done) ≤ i → i < size (spell done) + size run →
      t.isIgnored i = false) :
    ∃ behind, ps = run.map .code ++ behind ∧ spell behind = v := by
  induction run generalizing done ps with
  | nil => exact ⟨ps, rfl, spelled⟩
  | cons c run ih =>
    have positive := c.utf8Size_pos
    cases ps with
    | nil => cases spelled
    | cons p ps =>
      cases p with
      | code d =>
        obtain ⟨rfl, rest⟩ := List.cons.inj spelled
        have place : size (spell (done ++ [.code d])) = size (spell done) + d.utf8Size := by
          simp [Piece.text]
        have split' : t.pieces = (done ++ [.code d]) ++ ps := by
          rw [split, List.append_assoc]
          rfl
        obtain ⟨behind, rfl, same⟩ := ih split' rest fun i low high =>
          outside i (by omega) (by rw [size_cons]; omega)
        exact ⟨behind, rfl, same⟩
      | region kind body closed =>
        -- A region at this place would hold the first character.
        have formed := (scanned_pieces t).wellFormed (.region kind body closed) (by simp [split])
        have nonempty := ne_zero_size formed.text_ne_nil
        have inside := isIgnored_of_region split (Nat.le_refl _) (Nat.lt_add_of_pos_right
          (Nat.pos_of_ne_zero nonempty))
        rw [outside _ (Nat.le_refl _) (by rw [size_cons]; omega)] at inside
        cases inside

/-- A place between characters that lies in no span is a place between pieces. -/
theorem exists_pieces_of_unignored {u v : Text} (outside : isIgnored (u ++ v) (size u) = false) :
    ∃ ps qs, pieces (u ++ v) = ps ++ qs ∧ spell ps = u ∧ spell qs = v := by
  rcases exists_of_spell_eq_append (spell_pieces (u ++ v)) with
    inner | ⟨before, p, after, x, y, split, text, left, right, place, -⟩
  · exact inner
  · have inFront := Nat.pos_of_ne_zero (ne_zero_size left)
    have behind := Nat.pos_of_ne_zero (ne_zero_size right)
    have whole : size u = size (spell before) + size x := by rw [place, size_append]
    cases p with
    | code c =>
      have length := congrArg List.length text
      have := List.length_pos_of_ne_nil left
      have := List.length_pos_of_ne_nil right
      simp only [Piece.text, List.length_singleton, List.length_append] at length
      omega
    | region kind body closed =>
      have own : size body = size x + size y := by
        rw [← size_append]
        exact congrArg size text
      rw [isIgnored_of_region split (by omega) (by omega)] at outside
      cases outside

private theorem isName_iff {run : Text} (nonempty : run ≠ []) (u v : Text) :
    isName run = true ↔ isAt Char.isDigit (u ++ (run ++ v)) (size u) = false := by
  obtain ⟨c, rest, rfl⟩ := List.exists_cons_of_ne_nil nonempty
  rw [isAt_append utf8Size_of_isDigit]
  simp [isName]

/-- No identifier character ends the text before a run if none ends the pieces before it: a region
there ends on its own. -/
theorem any_getLast?_spell_iff {done ps : List Piece} (split : t.pieces = done ++ ps)
    (next : isAt isIdentChar t (size (spell done)) = true) :
    (spell done).getLast?.any isIdentChar = false ↔ ∀ p ∈ done.getLast?, p.isIdent = false := by
  rcases List.eq_nil_or_concat done with rfl | ⟨done, p, rfl⟩
  · simp
  · rw [List.concat_eq_append] at split next ⊢
    rw [List.append_assoc] at split
    cases p with
    | code c => simp [Piece.text, Piece.isIdent]
    | region kind body closed =>
      have formed := (scanned_pieces t).wellFormed (.region kind body closed) (by simp [split])
      have place : size (spell (done ++ [.region kind body closed])) =
          size (spell done) + size body := by simp [Piece.text]
      have whole : t = spell (done ++ [.region kind body closed]) ++ spell ps := by
        rw [← spell_append, List.append_assoc, ← split, spell_pieces]
      have last : isAt isIdentChar t (size (spell done) + size body - 1) = false := by
        rw [place] at next
        refine (isAt_stop_of_mem_spans (mem_spans_of_region split)).resolve_right ?_
        simp [next]
      rw [← place, whole, isAt_before (fun _ => utf8Size_of_isIdentChar)
        (by simpa using fun _ => formed.text_ne_nil)] at last
      exact iff_of_true last (by simp [Piece.isIdent])

/-- No identifier character starts the text behind a place if none starts the pieces there. -/
theorem any_head?_spell_iff {done ps : List Piece} (split : t.pieces = done ++ ps) :
    (spell ps).head?.any isIdentChar = false ↔ ∀ p ∈ ps.head?, p.isIdent = false := by
  rcases ps with _ | ⟨c | ⟨kind, body, closed⟩, ps⟩
  · simp
  · simp [Piece.text, Piece.isIdent]
  · have whole : t = spell done ++ spell (.region kind body closed :: ps) := by
      rw [← spell_append, ← split, spell_pieces]
    have first := isAt_start_of_mem_spans (mem_spans_of_region split)
    rw [whole] at first
    have none := (isAt_append (fun _ => utf8Size_of_isIdentChar) _ _).symm.trans first
    exact iff_of_true none (by simp [Piece.isIdent])

/-- A name between pieces that do not continue it is a run outside of all spans. -/
theorem isRun_of_between {ident : Identifier} {front behind : List Piece}
    (split : t.pieces = front ++ (ident.name.map .code ++ behind))
    (between : ident.Between front behind) (nonempty : ident.name ≠ []) :
    t.IsRun (size (spell front)) (size (spell front) + size ident.name) ∧
      t.OutsideSpans (size (spell front)) (size (spell front) + size ident.name) := by
  have split' : t.pieces = (front ++ ident.name.map .code) ++ behind := by
    rw [split, List.append_assoc]
  have whole : t = spell front ++ (ident.name ++ spell behind) := by
    rw [← spell_pieces t, split, spell_append, spell_append, spell_map_code]
  have next : isAt isIdentChar t (size (spell front)) = true := by
    have first := isAt_of_forall (fun _ => utf8Size_of_isIdentChar) (spell front) (spell behind)
      between.chars (Nat.pos_of_ne_zero (ne_zero_size nonempty))
    rwa [← whole] at first
  have run : t.IsRun (size (spell front)) (size (spell front) + size ident.name) := by
    have parts := isRun_append nonempty between.chars
      ((any_getLast?_spell_iff split next).mpr between.starts)
      ((any_head?_spell_iff split').mpr between.ends)
    rwa [← whole] at parts
  obtain ⟨c, rest, same⟩ := List.exists_cons_of_ne_nil nonempty
  have code : t.isIgnored (size (spell front)) = false :=
    isIgnored_of_code (by rw [split, same]; rfl)
  exact ⟨run, run.isIgnored_iff.mp code⟩

/-- The identifiers of a text are the runs outside of all spans that start with no digit. -/
theorem mem_identifiers_iff_isRun {ident : Identifier} :
    ident ∈ t.identifiers ↔ ∃ start stop, t.IsRun start stop ∧ t.OutsideSpans start stop ∧
      isAt Char.isDigit t start = false ∧ ident.offset = start ∧
      ident = ⟨(t.takeBytes start).reverse, t.slice start stop⟩ := by
  rw [mem_identifiers]
  constructor
  · rintro ⟨front, behind, split, between⟩
    have nonempty : ident.name ≠ [] := by
      intro empty
      have named := between.name
      rw [empty] at named
      cases named
    have whole : t = spell front ++ (ident.name ++ spell behind) := by
      rw [← spell_pieces t, split, spell_append, spell_append, spell_map_code]
    obtain ⟨run, outside⟩ := isRun_of_between split between nonempty
    obtain ⟨before, name⟩ := ident
    obtain ⟨rfl, named, -, -, -⟩ := between
    refine ⟨_, _, run, outside, ?_, size_reverse _, ?_⟩
    · rw [whole]
      exact (isName_iff nonempty _ _).mp named
    · rw [whole, takeBytes_append, slice_append]
  · rintro ⟨start, stop, run, outside, noDigit, -, rfl⟩
    obtain ⟨u, name, v, rfl, rfl, rfl, nonempty, chars, before, after⟩ := run.exists_parts
    obtain ⟨front, rest, split, rfl, spelled⟩ :=
      exists_pieces_of_unignored (outside.isIgnored (Nat.le_refl _) run.nonempty)
    obtain ⟨behind, rfl, rfl⟩ :=
      exists_map_code_of_outside split spelled fun _ => outside.isIgnored
    rw [takeBytes_append, slice_append]
    exact ⟨front, behind, split, rfl, (isName_iff nonempty _ _).mpr noDigit, chars,
      (any_getLast?_spell_iff split (run.chars _ (Nat.le_refl _) run.nonempty)).mp before,
      (any_head?_spell_iff (split.trans (List.append_assoc _ _ _).symm)).mp after⟩

/-- The identifier of a run comes before those behind the run. -/
theorem pairwise_offset_ofRun {before run : Text} {later : List Identifier}
    (ascending : later.Pairwise (·.offset < ·.offset))
    (behind : ∀ ident ∈ later, size before + size run ≤ ident.offset) :
    (Identifier.ofRun before run ++ later).Pairwise (·.offset < ·.offset) ∧
      ∀ ident ∈ Identifier.ofRun before run ++ later, size before ≤ ident.offset := by
  have own : ∀ ident ∈ Identifier.ofRun before run,
      ident.offset = size before ∧ 0 < size run := by
    intro ident member
    obtain ⟨rfl, named⟩ := Identifier.mem_ofRun.mp member
    refine ⟨rfl, Nat.pos_of_ne_zero (ne_zero_size ?_)⟩
    rintro rfl
    cases named
  refine ⟨List.pairwise_append.mpr ⟨?_, ascending, ?_⟩, ?_⟩
  · unfold Identifier.ofRun
    split
    · exact .nil
    · split
      · exact .nil
      · exact List.pairwise_singleton _ _
  · intro ident member next listed
    have first := own ident member
    have second := behind next listed
    omega
  · intro ident member
    rcases List.mem_append.mp member with here | listed
    · exact (own ident here).1.ge
    · have := behind ident listed
      omega

private theorem pairwise_offset_ofPieces (before run : Text) (ps : List Piece) :
    (Identifier.ofPieces before run ps).Pairwise (·.offset < ·.offset) ∧
      ∀ ident ∈ Identifier.ofPieces before run ps, size before ≤ ident.offset := by
  fun_induction Identifier.ofPieces before run ps with
  | case1 before run =>
    rw [← List.append_nil (Identifier.ofRun before run)]
    exact pairwise_offset_ofRun .nil (List.forall_mem_nil _)
  | case2 before run c ps ident ih => exact ih
  | case3 before run c ps other ih =>
    refine pairwise_offset_ofRun ih.1 fun ident member => ?_
    have behind := ih.2 ident member
    rw [size_cons, size_append] at behind
    omega
  | case4 before run kind body closed ps ih =>
    refine pairwise_offset_ofRun ih.1 fun ident member => ?_
    have behind := ih.2 ident member
    rw [size_append, size_append] at behind
    omega

/-- What the identifiers of a text are. -/
structure RunsApart (t : Text) : Prop where
  apart : ∀ start stop, t.IsRun start stop → t.WithinSpan start stop ∨ t.OutsideSpans start stop
  decided : ∀ start stop, t.IsRun start stop →
    (t.isIgnored start = false ↔ t.OutsideSpans start stop)
  mem_identifiers_iff : ∀ ident, ident ∈ t.identifiers ↔ ∃ start stop, t.IsRun start stop ∧
    t.OutsideSpans start stop ∧ isAt Char.isDigit t start = false ∧ ident.offset = start ∧
    ident = ⟨(t.takeBytes start).reverse, t.slice start stop⟩
  ascending : (t.identifiers.map (·.offset)).Pairwise (· < ·)

/-- **Identifiers are whole runs.** A run lies in one span or outside of all, as its first byte
tells, and the identifiers of a text are the runs outside of all spans that start with no digit,
each once and in order. -/
theorem runsApart (t : Text) : t.RunsApart where
  apart _ _ run := run.isIgnored_cases.imp And.right And.right
  decided _ _ run := run.isIgnored_iff
  mem_identifiers_iff _ := mem_identifiers_iff_isRun
  ascending := List.pairwise_map.mpr (pairwise_offset_ofPieces [] [] t.pieces).1

example : (identifiers "é9x = \"y\" + z2/* w */").map (fun ident => (ident.offset, ident.name)) =
    [(13, ("z2" : Text))] := by
  decide +kernel

end Text

end ScriptLoom
