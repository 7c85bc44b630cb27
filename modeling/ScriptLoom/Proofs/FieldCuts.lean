import ScriptLoom.Proofs.CommentRemoval
import ScriptLoom.Proofs.NameRuns
import ScriptLoom.Proofs.OpenFunctions
import ScriptLoom.Record

/-! # The semicolons between fields

The fields of a struct are what stands between the semicolons of its body, without comments and with
the lines put together. Putting lines together changes blanks only, so it makes no difference
whether the body is cut before or after it (`Record.fieldsOf_eq`). The semicolons inside literals
are cut at too: the fields are the parts between the semicolons of the code, and hold the literals
of the body whole, if and only if no literal has a semicolon in it (`Record.fields_cut_iff`).
-/

namespace ScriptLoom

namespace Text

/-! ### Blanks around parts -/

private theorem trim_append_blanks {blanks : Text} (blank : ∀ c ∈ blanks, isBlank c = true)
    (t : Text) :
    (t ++ blanks).trim = t.trim := by
  induction blanks using List.reverseRecOn with
  | nil => rw [List.append_nil]
  | append_singleton blanks c ih =>
    obtain ⟨earlier, last⟩ := List.forall_mem_append.mp blank
    rw [← List.append_assoc, trim_concat_blank _ (last c (List.mem_singleton_self c)), ih earlier]

private theorem exists_trimStart_eq (t : Text) :
    ∃ blanks, (∀ c ∈ blanks, isBlank c = true) ∧ t.trimStart = t.trim ++ blanks :=
  ⟨t.trimStart.rtakeWhile isBlank, fun _ => List.mem_rtakeWhile_imp,
    List.rdropWhile_append_rtakeWhile.symm⟩

private theorem exists_trimEnd_eq (t : Text) :
    ∃ blanks, (∀ c ∈ blanks, isBlank c = true) ∧ t.trimEnd = blanks ++ t.trim := by
  change ∃ blanks, _ ∧ t.rdropWhile isBlank = _
  obtain ⟨before, after, whole, blank, blank'⟩ := exists_eq_append_trim t
  have dropped : ∀ s : Text, (s ++ after).rdropWhile isBlank = s.rdropWhile isBlank := by
    intro s
    rw [List.rdropWhile, List.reverse_append, List.dropWhile_append_of_pos (by simpa using blank')]
    rfl
  rcases List.eq_nil_or_concat t.trim with empty | ⟨front, c, last⟩
  · have blanks := trim_eq_nil_iff.mp empty
    refine ⟨[], List.forall_mem_nil _, ?_⟩
    rw [empty, List.rdropWhile_eq_nil_iff.mpr blanks]
    rfl
  · rw [List.concat_eq_append] at last
    have visible : isBlank c = false := isBlank_getLast?_trim (by rw [last, List.getLast?_concat])
    refine ⟨before, blank, ?_⟩
    conv_lhs => rw [whole, ← List.append_assoc, dropped, last, ← List.append_assoc]
    rw [List.rdropWhile_concat_neg _ _ _ (by simp [visible]), last, List.append_assoc]

/-- Cutting at semicolons and trimming does not see the blanks around a text. -/
theorem map_trim_splitOn_blanks {before after : Text} (blank : ∀ c ∈ before, isBlank c = true)
    (blank' : ∀ c ∈ after, isBlank c = true) (t : Text) :
    ((before ++ (t ++ after)).splitOn ';').map trim = (t.splitOn ';').map trim := by
  have absent : ∀ {blanks : Text}, (∀ c ∈ blanks, isBlank c = true) → ';' ∉ blanks :=
    fun blank member => absurd (blank ';' member) (by decide)
  induction t using separator_induction (· == ';') generalizing before after with
  | whole t none =>
    have absentHere : ';' ∉ t := fun member => by simpa using none ';' member
    rw [List.splitOn_eq_singleton absentHere, List.splitOn_eq_singleton, List.map_singleton,
      trim_blanks_append blank, trim_append_blanks blank']
    · rfl
    · simp [absent blank, absent blank', absentHere]
  | cut front c back semicolon left right =>
    obtain rfl : c = ';' := by simpa using semicolon
    have front' := left blank (List.forall_mem_nil _)
    have back' := right (List.forall_mem_nil _) blank'
    rw [List.append_nil] at front'
    rw [List.nil_append] at back'
    rw [List.append_assoc, ← List.append_assoc before, List.cons_append,
      List.splitOn_append_cons_self, List.splitOn_append_cons_self, List.map_append,
      List.map_append, front', back']

/-! ### Lines put together -/

/-- The parts of a text between its line feeds, trimmed and put on one line. -/
def joinedParts (t : Text) : Text :=
  join [' '] ((t.splitOn '\n').map trim)

private theorem joinedParts_line {line : Text} (inLine : '\n' ∉ line) :
    joinedParts line = line.trim := by
  rw [joinedParts, List.splitOn_eq_singleton inLine]
  simp [join]

private theorem joinedParts_append {line : Text} (inLine : '\n' ∉ line) (t : Text) :
    joinedParts (line ++ '\n' :: t) = line.trim ++ ' ' :: joinedParts t := by
  have nonempty : (t.splitOn '\n').map trim ≠ [] := by
    rw [splitOn_eq_cons]
    simp
  rw [joinedParts, List.splitOn_append_cons_self_of_not_mem inLine, List.map_cons, join,
    List.intercalate_cons_of_ne_nil nonempty, List.append_assoc]
  rfl

/-- The lines of a text have no part behind a line feed at the end. -/
theorem exists_joinedParts_eq (t : Text) :
    ∃ blanks, (∀ c ∈ blanks, isBlank c = true) ∧
      joinedParts t = join [' '] (t.lines.map trim) ++ blanks := by
  have parts : ∀ parts : List Text, ∃ blanks, (∀ c ∈ blanks, isBlank c = true) ∧
      join [' '] (parts.map trim) = join [' '] ((linesOfParts parts).map trim) ++ blanks := by
    intro parts
    fun_induction linesOfParts parts with
    | case1 => exact ⟨[], by simp, rfl⟩
    | case2 => exact ⟨[], by simp, rfl⟩
    | case3 => exact ⟨[], by simp, by simp⟩
    | case4 line rest several ih =>
      obtain ⟨blanks, blank, same⟩ := ih
      have nonempty : rest.map trim ≠ [] := by
        intro empty
        exact several (List.map_eq_nil_iff.mp empty)
      rw [List.map_cons, List.map_cons, trim_dropReturn, join,
        List.intercalate_cons_of_ne_nil nonempty, ← join, same]
      cases (linesOfParts rest).map trim with
      | nil => exact ⟨' ' :: blanks, List.forall_mem_cons.mpr ⟨by decide, blank⟩, by simp [join]⟩
      | cons next more =>
        refine ⟨blanks, blank, ?_⟩
        rw [join, join, List.intercalate_cons_cons]
        simp
  exact parts _

/-- Putting lines together changes blanks only. -/
theorem filter_joinedParts (t : Text) :
    (joinedParts t).filter (!isBlank ·) = t.filter (!isBlank ·) := by
  have trimmed : ∀ line : Text, line.trim.filter (!isBlank ·) = line.filter (!isBlank ·) := by
    intro line
    obtain ⟨before, after, whole, blank, blank'⟩ := exists_eq_append_trim line
    have gone : ∀ {blanks : Text}, (∀ c ∈ blanks, isBlank c = true) →
        blanks.filter (!isBlank ·) = [] := by
      intro blanks blank
      rw [List.filter_eq_nil_iff]
      intro c member
      simp [blank c member]
    conv_rhs => rw [whole, List.filter_append, List.filter_append, gone blank, gone blank']
    simp
  induction t using line_induction with
  | last line inLine => rw [joinedParts_line inLine, trimmed]
  | more line t inLine ih =>
    rw [joinedParts_append inLine, List.filter_append, List.filter_append, trimmed,
      List.filter_cons_of_neg (by decide), List.filter_cons_of_neg (by decide), ih]

private theorem semicolon_mem_joinedParts {t : Text} : ';' ∈ joinedParts t ↔ ';' ∈ t := by
  have kept : ∀ t : Text, ';' ∈ t.filter (!isBlank ·) ↔ ';' ∈ t := by
    intro t
    rw [List.mem_filter, and_iff_left (by decide)]
  rw [← kept, filter_joinedParts, kept]

/-- A semicolon stays between what stands before it and what stands behind it. -/
theorem exists_joinedParts_cut (s t : Text) :
    ∃ before after, (∀ c ∈ before, isBlank c = true) ∧ (∀ c ∈ after, isBlank c = true) ∧
      joinedParts (s ++ ';' :: t) =
        (joinedParts s ++ after) ++ ';' :: (before ++ joinedParts t) := by
  have visible : isBlank ';' = false := by decide
  induction s using line_induction with
  | last line inLine =>
    obtain ⟨after, blank', start⟩ := exists_trimStart_eq line
    have unbroken : ∀ {rest : Text}, '\n' ∉ rest → '\n' ∉ line ++ ';' :: rest := by
      intro rest inRest
      simp [inLine, inRest]
    induction t using line_induction with
    | last rest inRest =>
      obtain ⟨before, blank, ending⟩ := exists_trimEnd_eq rest
      refine ⟨before, after, blank, blank', ?_⟩
      rw [joinedParts_line (unbroken inRest), joinedParts_line inLine, joinedParts_line inRest,
        trim_append_cons visible, start, ending]
    | more rest t inRest _ =>
      obtain ⟨before, blank, ending⟩ := exists_trimEnd_eq rest
      refine ⟨before, after, blank, blank', ?_⟩
      rw [← List.cons_append, ← List.append_assoc, joinedParts_append (unbroken inRest),
        joinedParts_line inLine, joinedParts_append inRest, trim_append_cons visible, start, ending]
      simp
  | more line s inLine ih =>
    obtain ⟨before, after, blank, blank', cut⟩ := ih
    refine ⟨before, after, blank, blank', ?_⟩
    rw [List.append_assoc, List.cons_append, joinedParts_append inLine, cut,
      joinedParts_append inLine]
    simp

/-- It makes no difference whether lines are put together before or after cutting. -/
theorem map_trim_splitOn_joinedParts (t : Text) :
    ((joinedParts t).splitOn ';').map trim =
      (t.splitOn ';').map fun part => (joinedParts part).trim := by
  induction t using separator_induction (· == ';') with
  | whole t none =>
    have absent : ';' ∉ t := fun member => by simpa using none ';' member
    have absent' : ';' ∉ joinedParts t := by rwa [semicolon_mem_joinedParts]
    rw [List.splitOn_eq_singleton absent, List.splitOn_eq_singleton absent']
    rfl
  | cut front c back semicolon left right =>
    obtain rfl : c = ';' := by simpa using semicolon
    obtain ⟨before, after, blank, blank', cut⟩ := exists_joinedParts_cut front back
    have front' := map_trim_splitOn_blanks (List.forall_mem_nil _) blank' (joinedParts front)
    have back' := map_trim_splitOn_blanks blank (List.forall_mem_nil _) (joinedParts back)
    rw [List.nil_append] at front'
    rw [List.append_nil] at back'
    rw [cut, List.splitOn_append_cons_self, List.splitOn_append_cons_self, List.map_append,
      List.map_append, front', back', left, right]

end Text

/-! ### Fields -/

namespace Record

open Text

/-- A part of a body as the field that is made of it: its lines, trimmed and put together. -/
def tidy (part : Text) : Text :=
  (join [' '] (part.lines.map trim)).trim

private theorem tidy_eq (part : Text) : tidy part = (joinedParts part).trim := by
  obtain ⟨blanks, blank, same⟩ := exists_joinedParts_eq part
  rw [same, trim_append_blanks blank, tidy]

private theorem tidy_eq_nil {part : Text} : tidy part = [] ↔ part.trim = [] := by
  have visible : ∀ t : Text, t.trim = [] ↔ t.filter (!isBlank ·) = [] := by
    intro t
    rw [trim_eq_nil_iff, List.filter_eq_nil_iff]
    simp
  rw [tidy_eq, visible, filter_joinedParts, visible]

private theorem semicolon_mem_tidy {part : Text} : ';' ∈ tidy part ↔ ';' ∈ part := by
  rw [tidy_eq, ← semicolon_mem_joinedParts (t := part)]
  generalize joinedParts part = t
  obtain ⟨before, after, whole, blank, blank'⟩ := exists_eq_append_trim t
  constructor
  · exact fun member => (trim_isInfix t).subset member
  · intro member
    rw [whole, List.mem_append, List.mem_append] at member
    rcases member with early | inside | late
    · exact absurd (blank _ early) (by decide)
    · exact inside
    · exact absurd (blank' _ late) (by decide)

/-- The fields of a struct are the parts of its body between all its semicolons. -/
theorem fieldsOf_eq (body : Text) :
    fieldsOf body = ((body.withoutComments.splitOn ';').filter (trim · ≠ [])).map tidy := by
  obtain ⟨blanks, blank, same⟩ := exists_joinedParts_eq body.withoutComments
  have cut := map_trim_splitOn_joinedParts body.withoutComments
  have ending := map_trim_splitOn_blanks (List.forall_mem_nil _) blank
    (join [' '] (body.withoutComments.lines.map trim))
  rw [List.nil_append, ← same, cut] at ending
  have each : (fun part => (joinedParts part).trim) = tidy := funext fun part => (tidy_eq part).symm
  have nonblank : (fun part => decide (tidy part ≠ [])) = fun part => decide (part.trim ≠ []) :=
    funext fun part => decide_eq_decide.mpr (not_congr tidy_eq_nil)
  rw [fieldsOf, ← ending, each, List.filter_map]
  exact congrArg (fun keep => ((body.withoutComments.splitOn ';').filter keep).map tidy) nonblank

private theorem semicolon_not_mem_field {body field : Text} (member : field ∈ fieldsOf body) :
    ';' ∉ field := by
  rw [fieldsOf_eq] at member
  obtain ⟨part, listed, rfl⟩ := List.mem_map.mp member
  rw [semicolon_mem_tidy]
  intro inside
  have none := separates_of_mem_splitOnP (List.mem_of_mem_filter listed) ';' inside
  simp at none

end Record

/-! ### Literals -/

private theorem Piece.isWhole_region {kind : Region} {body : Text} (literal : kind ≠ .comment) :
    (Piece.region kind body true).isWhole = true := by
  cases kind with
  | comment => exact absurd rfl literal
  | string | character => rfl

namespace Text

/-- The parts of a text between the semicolons outside comments and literals. -/
def codeParts (t : Text) : List Text :=
  (t.pieces.splitOn (.code ';')).map spell

/-- Whether a text has no comments, and all its literals are closed. -/
def Terminated (t : Text) : Prop :=
  ∀ p ∈ t.pieces, p.isComment = false ∧ p.isWhole = true

private theorem filterMap_literal?_withoutComments (t : Text) :
    t.withoutComments.pieces.filterMap Piece.literal? = t.pieces.filterMap Piece.literal? := by
  rw [pieces_withoutComments, List.filterMap_flatMap]
  simp only [filterMap_literal?_stripped, ← List.filterMap_eq_flatMap_toList]

private theorem terminated_withoutComments {t : Text}
    (closed : ∀ literal ∈ t.pieces.filterMap Piece.literal?, literal.2.2 = true) :
    t.withoutComments.Terminated := by
  rw [← filterMap_literal?_withoutComments] at closed
  intro p member
  have free := commentFree_withoutComments t p member
  refine ⟨free, ?_⟩
  rcases p with c | ⟨kind, body, isClosed⟩
  · rfl
  · have literal := Piece.ne_comment_of_isComment free
    obtain rfl : isClosed = true :=
      closed _ (List.mem_filterMap.mpr ⟨_, member, Piece.literal?_region literal⟩)
    exact Piece.isWhole_region literal

private theorem Terminated.pieces_append_blank {s : Text} (terminated : s.Terminated) {c : Char}
    (blank : isBlank c = true) (t : Text) :
    pieces (s ++ c :: t) = s.pieces ++ .code c :: t.pieces := by
  have ne : ∀ d, isBlank d = false → c ≠ d := by
    rintro d visible rfl
    exact absurd blank (by simp [visible])
  rw [pieces_append, pieces_cons_blank t blank]
  intro p last
  obtain ⟨noLine, noText⟩ :=
    Piece.isWhole_iff.mp (terminated p (List.mem_of_getLast? last)).2
  refine ⟨fun _ => ?_, fun ends => ?_, fun ends => ?_⟩
  · simp [ne '/' (by decide), ne '*' (by decide)]
  · exact absurd ends (by simp [noLine])
  · exact absurd ends (by simp [noText])

private theorem Terminated.pieces_trim {t : Text} (terminated : t.Terminated) :
    t.trim.pieces = trimPieces t.pieces := by
  have trimmed := trim_spell (scanned_pieces t).wellFormed fun p member => (terminated p member).2
  rw [spell_pieces] at trimmed
  rw [trimmed]
  exact pieces_spell_part (trimPieces_isInfix t.pieces)

end Text

private theorem filterMap_literal?_trimPieces (ps : List Piece) :
    (trimPieces ps).filterMap Piece.literal? = ps.filterMap Piece.literal? := by
  have gone : ∀ {blanks : List Piece}, (∀ p ∈ blanks, p.isBlankCode = true) →
      blanks.filterMap Piece.literal? = [] := by
    intro blanks blank
    rw [List.filterMap_eq_nil_iff]
    intro p member
    rcases p with c | ⟨kind, body, closed⟩
    · rfl
    · cases blank _ member
  have whole : ps = ps.takeWhile Piece.isBlankCode ++
      (trimPieces ps ++ (ps.dropWhile Piece.isBlankCode).rtakeWhile Piece.isBlankCode) := by
    rw [trimPieces, List.rdropWhile_append_rtakeWhile, List.takeWhile_append_dropWhile]
  conv_rhs => rw [whole, List.filterMap_append, List.filterMap_append,
    gone fun p => List.mem_takeWhile_imp, gone fun p => List.mem_rtakeWhile_imp]
  simp

namespace Text

private theorem Terminated.trim {t : Text} (terminated : t.Terminated) : t.trim.Terminated := by
  intro p member
  rw [terminated.pieces_trim] at member
  exact terminated p ((trimPieces_isInfix t.pieces).subset member)

/-- Putting lines together keeps the literals. -/
theorem Terminated.joinedParts {t : Text} (terminated : t.Terminated) :
    t.joinedParts.Terminated ∧
      t.joinedParts.pieces.filterMap Piece.literal? = t.pieces.filterMap Piece.literal? := by
  induction t using line_induction with
  | last line inLine =>
    rw [joinedParts_line inLine]
    exact ⟨terminated.trim, by rw [terminated.pieces_trim, filterMap_literal?_trimPieces]⟩
  | more line t inLine ih =>
    have read := pieces_line_append inLine fun p member => (terminated p member).1
    unfold Terminated at terminated
    rw [read, List.forall_mem_append, List.forall_mem_cons] at terminated
    obtain ⟨first, -, later⟩ := terminated
    have line' : line.Terminated := first
    obtain ⟨joined, kept⟩ := ih later
    have read' := line'.trim.pieces_append_blank (c := ' ') (by decide) t.joinedParts
    rw [joinedParts_append inLine, Terminated, read', read, List.filterMap_append,
      List.filterMap_append, line'.pieces_trim, filterMap_literal?_trimPieces]
    refine ⟨?_, congrArg _ kept⟩
    rw [← line'.pieces_trim]
    exact List.forall_mem_append.mpr ⟨line'.trim, List.forall_mem_cons.mpr ⟨⟨rfl, rfl⟩, joined⟩⟩

private theorem Terminated.filterMap_literal?_tidy {t : Text} (terminated : t.Terminated) :
    (Record.tidy t).pieces.filterMap Piece.literal? = t.pieces.filterMap Piece.literal? := by
  obtain ⟨joined, kept⟩ := terminated.joinedParts
  rw [Record.tidy_eq, joined.pieces_trim, filterMap_literal?_trimPieces, kept]

end Text

/-! ### Cuts outside literals -/

/-- The semicolons of a text are those of its code if the other pieces have none. -/
theorem splitOn_spell {ps : List Piece} (none : ∀ p ∈ ps, p ≠ .code ';' → ';' ∉ p.text) :
    (spell ps).splitOn ';' = (ps.splitOn (.code ';')).map spell := by
  induction ps using separator_induction (fun p : Piece => p == .code ';') with
  | whole ps others =>
    have absent : .code ';' ∉ ps := fun member => by simpa using others _ member
    have absent' : ';' ∉ spell ps := by
      intro member
      obtain ⟨p, listed, inside⟩ := List.mem_flatMap.mp member
      exact none p listed (fun same => absent (same ▸ listed)) inside
    rw [List.splitOn_eq_singleton absent, List.splitOn_eq_singleton absent']
    rfl
  | cut front p back semicolon left right =>
    obtain rfl : p = .code ';' := by simpa using semicolon
    obtain ⟨inFront, inRest⟩ := List.forall_mem_append.mp none
    obtain ⟨-, inBack⟩ := List.forall_mem_cons.mp inRest
    rw [List.splitOn_append_cons_self, List.map_append, ← left inFront, ← right inBack,
      spell_append, spell_cons]
    exact List.splitOn_append_cons_self _ _

namespace Text

variable {t : Text}

private theorem pieces_of_mem_codeParts {part : Text} (member : part ∈ t.codeParts) :
    part.pieces ∈ t.pieces.splitOn (.code ';') := by
  obtain ⟨ps, listed, rfl⟩ := List.mem_map.mp member
  rwa [pieces_spell_part (isInfix_of_mem_splitOnP listed)]

private theorem Terminated.of_mem_codeParts (terminated : t.Terminated) {part : Text}
    (member : part ∈ t.codeParts) : part.Terminated := by
  intro p inside
  have listed := pieces_of_mem_codeParts member
  exact terminated p ((isInfix_of_mem_splitOnP listed).subset inside)

private theorem flatMap_literal?_codeParts (t : Text) :
    (t.codeParts.flatMap fun part => part.pieces.filterMap Piece.literal?) =
      t.pieces.filterMap Piece.literal? := by
  have cut : ∀ (front : List Piece) p back, (p == Piece.code ';') = true →
      (front ++ p :: back).filterMap Piece.literal? =
        front.filterMap Piece.literal? ++ back.filterMap Piece.literal? := by
    intro front p back semicolon
    obtain rfl : p = .code ';' := by simpa using semicolon
    rw [List.filterMap_append, List.filterMap_cons_none rfl]
  rw [← flatMap_splitOnP cut t.pieces, codeParts, List.flatMap_map]
  refine List.flatMap_congr fun ps listed => ?_
  rw [pieces_spell_part (isInfix_of_mem_splitOnP listed)]

private theorem subset_of_mem_literals {literal : Text × Region × Bool}
    (member : literal ∈ t.pieces.filterMap Piece.literal?) : literal.1 ⊆ t := by
  obtain ⟨p, listed, same⟩ := List.mem_filterMap.mp member
  have own : literal.1 = p.text := by
    rcases p with c | ⟨kind, body, closed⟩
    · cases same
    · cases kind <;> cases same <;> rfl
  intro c inside
  rw [← spell_pieces t]
  exact List.mem_flatMap.mpr ⟨p, listed, own ▸ inside⟩

private theorem codeParts_eq (terminated : t.Terminated)
    (none : ∀ literal ∈ t.pieces.filterMap Piece.literal?, ';' ∉ literal.1) :
    t.codeParts = t.splitOn ';' := by
  have others : ∀ p ∈ t.pieces, p ≠ .code ';' → ';' ∉ p.text := by
    intro p member other
    rcases p with c | ⟨kind, body, closed⟩
    · simpa [Piece.text, eq_comm] using other
    · have literal := Piece.ne_comment_of_isComment (terminated _ member).1
      exact none _ (List.mem_filterMap.mpr ⟨_, member, Piece.literal?_region literal⟩)
  rw [codeParts, ← splitOn_spell others, spell_pieces]

end Text

namespace Record

open Text

variable {body : Text}

private theorem not_mem_literals_of_fields {literal : Text × Region × Bool}
    (member : literal ∈ (fieldsOf body).flatMap (·.pieces.filterMap Piece.literal?)) :
    ';' ∉ literal.1 := by
  obtain ⟨field, listed, own⟩ := List.mem_flatMap.mp member
  exact fun inside => semicolon_not_mem_field listed (subset_of_mem_literals own inside)

private theorem not_mem_literals_of_codeParts
    (cut : fieldsOf body = (body.withoutComments.codeParts.filter (trim · ≠ [])).map tidy)
    {literal : Text × Region × Bool}
    (member : literal ∈ body.withoutComments.pieces.filterMap Piece.literal?) :
    ';' ∉ literal.1 := by
  intro inside
  rw [← flatMap_literal?_codeParts] at member
  obtain ⟨part, listed, own⟩ := List.mem_flatMap.mp member
  have semicolon := subset_of_mem_literals own inside
  have visible : part.trim ≠ [] :=
    fun empty => absurd (trim_eq_nil_iff.mp empty _ semicolon) (by decide)
  have field : tidy part ∈ fieldsOf body := by
    rw [cut]
    exact List.mem_map_of_mem (List.mem_filter.mpr ⟨listed, by simpa using visible⟩)
  exact semicolon_not_mem_field field (semicolon_mem_tidy.mpr semicolon)

/-- Parts of code that become fields keep their literals, and those that are left out have none. -/
theorem flatMap_literal?_tidy {t : Text} (terminated : t.Terminated) :
    ((t.codeParts.filter (trim · ≠ [])).map tidy).flatMap (·.pieces.filterMap Piece.literal?) =
      t.pieces.filterMap Piece.literal? := by
  rw [List.flatMap_map, ← flatMap_literal?_codeParts]
  have each : ∀ part ∈ t.codeParts, (tidy part).pieces.filterMap Piece.literal? =
      part.pieces.filterMap Piece.literal? :=
    fun part listed => (terminated.of_mem_codeParts listed).filterMap_literal?_tidy
  generalize t.codeParts = parts at each
  induction parts with
  | nil => rfl
  | cons part parts ih =>
    obtain ⟨own, later⟩ := List.forall_mem_cons.mp each
    rw [List.flatMap_cons, ← ih later, ← own]
    by_cases blank : part.trim = []
    · rw [List.filter_cons_of_neg (by simpa using blank), tidy_eq_nil.mpr blank, pieces_nil]
      rfl
    · rw [List.filter_cons_of_pos (by simpa using blank), List.flatMap_cons]

/-- **The fields of a struct.** The body is cut at all its semicolons. If its literals are closed,
the fields are the parts between the semicolons outside literals exactly if no literal has a
semicolon in it, and exactly then do the fields hold all literals of the body whole, each in one of
them. -/
theorem fields_cut_iff (closed : ∀ span ∈ body.literals, span.closed = true) :
    fieldsOf body = ((body.withoutComments.splitOn ';').filter (trim · ≠ [])).map tidy ∧
    (fieldsOf body = (body.withoutComments.codeParts.filter (trim · ≠ [])).map tidy ↔
      ∀ span ∈ body.literals, ';' ∉ body.slice span.start span.stop) ∧
    ((fieldsOf body).flatMap (fun field => field.literals.map field.literalAt) =
        body.literals.map body.literalAt ↔
      ∀ span ∈ body.literals, ';' ∉ body.slice span.start span.stop) := by
  have spans : ∀ property : Text × Region × Bool → Prop,
      (∀ span ∈ body.literals, property (body.literalAt span)) ↔
        ∀ literal ∈ body.withoutComments.pieces.filterMap Piece.literal?, property literal := by
    intro property
    rw [filterMap_literal?_withoutComments, ← map_literalAt_literals, List.forall_mem_map]
  have terminated : body.withoutComments.Terminated := by
    refine terminated_withoutComments ?_
    rw [← filterMap_literal?_withoutComments]
    exact (spans (·.2.2 = true)).mp closed
  have semicolons : (∀ span ∈ body.literals, ';' ∉ body.slice span.start span.stop) ↔
      ∀ literal ∈ body.withoutComments.pieces.filterMap Piece.literal?, ';' ∉ literal.1 :=
    spans (';' ∉ ·.1)
  have cut := fieldsOf_eq body
  have outside : (∀ literal ∈ body.withoutComments.pieces.filterMap Piece.literal?,
      ';' ∉ literal.1) →
        fieldsOf body = (body.withoutComments.codeParts.filter (trim · ≠ [])).map tidy := by
    intro none
    rw [cut, codeParts_eq terminated none]
  simp only [map_literalAt_literals, semicolons]
  rw [← filterMap_literal?_withoutComments body]
  refine ⟨cut, ⟨fun same _ => not_mem_literals_of_codeParts same, outside⟩, ?_, ?_⟩
  · intro same literal listed
    rw [← same] at listed
    exact not_mem_literals_of_fields listed
  · intro none
    rw [outside none, flatMap_literal?_tidy terminated]

/-- Fields over several lines, with a comment between them and a literal that looks like one. -/
theorem fields_cut_over_lines :
    let body : Text := " int a; // first; \n\tString s\n\t\t= \"//, \" ;\n\n"
    (∀ span ∈ body.literals, span.closed = true) ∧
      fieldsOf body = ["int a", "String s = \"//, \""] ∧
      fieldsOf body = (body.withoutComments.codeParts.filter (trim · ≠ [])).map tidy ∧
      (fieldsOf body).flatMap (fun field => field.literals.map field.literalAt) =
        body.literals.map body.literalAt := by
  intro body
  have closed : ∀ span ∈ body.literals, span.closed = true := by decide +kernel
  obtain ⟨-, parts, literals⟩ := fields_cut_iff closed
  have none : ∀ span ∈ body.literals, ';' ∉ body.slice span.start span.stop := by decide +kernel
  exact ⟨closed, by decide +kernel, parts.mpr none, literals.mpr none⟩

/-- A literal with a semicolon is cut in two. -/
theorem fields_of_semicolon_literal :
    let body : Text := " char c = ';'; "
    (∀ span ∈ body.literals, span.closed = true) ∧
      fieldsOf body = ["char c = '", "'"] ∧
      (body.withoutComments.codeParts.filter (trim · ≠ [])).map tidy = ["char c = ';'"] := by
  decide +kernel

end Record

end ScriptLoom
