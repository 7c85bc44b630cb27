import ScriptLoom.Proofs.BraceBalance
import ScriptLoom.Proofs.CommentRemoval
import ScriptLoom.Proofs.Cuts
import ScriptLoom.Proofs.EntryPoint
import ScriptLoom.Proofs.GlobalFields

/-! # The functions of a library are whole blocks

A function of a library is cut out from its line through the brace that matches the first one, and
then taken apart into lines: comments and blank lines go, the blanks in front of lines are counted
anew and the header is made static. All of that happens between the lines and in front of them,
so the text of the function is one block again and has the lines of the library in order
(`Catalog.functions_ofLibrary`). The header becomes the one that is due unless `static` stands
in it and not right behind the visibility.
-/

namespace ScriptLoom

namespace Text

/-! ### Texts that are one block -/

/-- Whether the last piece of a text is a closing brace. -/
def Closes (t : Text) : Prop :=
  t.pieces.getLast? = some (.code '}')

/-- The first brace of a text matches its last one when its word of braces says so. -/
theorem blockEnd?_of_braces {t front inner : Text} (closes : t.Closes)
    (word : t.braces = front ++ '{' :: (inner ++ ['}'])) (first : '{' ∉ front)
    (nested : nesting '{' '}' 0 inner = some 0) : t.blockEnd? 0 = some t.size := by
  obtain ⟨before, read⟩ := List.getLast?_eq_some_iff.mp closes
  have start : (codeOf before).filter (isBracket '{' '}') = front ++ '{' :: inner := by
    have ended : (codeOf before).filter (isBracket '{' '}') ++ ['}'] =
        (front ++ '{' :: inner) ++ ['}'] := by
      rw [List.append_assoc, List.cons_append, ← word, braces, codeIn, read]
      simp [isBracket]
    exact List.append_cancel_right ended
  have opened : .code '{' ∈ before := by
    have member : '{' ∈ (codeOf before).filter (isBracket '{' '}') := by
      rw [start]
      simp
    exact mem_codeOf.mp (List.mem_of_mem_filter member)
  cases opens : splitAtCode? '{' before with
  | none => exact absurd opened (splitAtCode?_eq_none_iff.mp opens)
  | some parts =>
    obtain ⟨header, inside⟩ := parts
    obtain ⟨rfl, absent⟩ := eq_of_splitAtCode? opens
    have noBrace : '{' ∉ (codeOf header).filter (isBracket '{' '}') := fun member =>
      absent (mem_codeOf.mp (List.mem_of_mem_filter member))
    -- both words begin with what stands before their first opening brace
    have same : (codeOf inside).filter (isBracket '{' '}') = inner := by
      rw [codeOf_append, codeOf_cons_code, List.filter_append,
        List.filter_cons_of_pos (by decide)] at start
      exact (eq_of_append_cons noBrace first start).2
    have balanced : nesting '{' '}' 0 (codeOf inside) = some 0 := by
      rw [← nesting_filter_isBracket, same, nested]
    have split : t.pieces = [] ++ (header ++ .code '{' :: (inside ++ [.code '}'])) := by
      rw [read]
      simp
    have opening := findCode?_of_pieces split absent
    have closing := matchingBracket?_of_pieces (by decide) split balanced
    have whole : t.size = size (spell (header ++ .code '{' :: inside)) + 1 := by
      rw [← spell_pieces t, split]
      simp [Piece.text, Nat.add_assoc, show '}'.utf8Size = 1 from rfl]
    rw [spell_nil, size_nil, Nat.zero_add] at opening
    rw [blockEnd?, opening, whole, Option.bind_eq_bind, Option.bind_some, closing]
    rfl

/-- The braces of a block that was cut out. -/
theorem exists_braces_of_cutBlock? {t block after : Text}
    (cut : t.cutBlock? = some (block, after)) :
    block.withoutComments.Closes ∧ ∃ front inner : Text,
      block.braces = front ++ '{' :: (inner ++ ['}']) ∧ '{' ∉ front ∧
      nesting '{' '}' 0 inner = some 0 := by
  obtain ⟨header, inside, rest, whole, first, balanced, rfl, -⟩ := exists_of_cutBlock? cut
  have read : pieces (spell (header ++ .code '{' :: (inside ++ [.code '}']))) =
      header ++ .code '{' :: (inside ++ [.code '}']) :=
    pieces_spell_part (t := t) ⟨[], rest, by rw [whole]; simp⟩
  refine ⟨?_, (codeOf header).filter (isBracket '{' '}'),
    (codeOf inside).filter (isBracket '{' '}'), ?_, ?_, ?_⟩
  · have ending : (header ++ Piece.code '{' :: (inside ++ [.code '}'])).flatMap Piece.stripped =
        (header ++ .code '{' :: inside).flatMap Piece.stripped ++ [.code '}'] := by
      simp [Piece.stripped]
    rw [Closes, pieces_withoutComments, read, ending, List.getLast?_concat]
  · rw [braces, codeIn, read]
    simp [isBracket]
  · exact fun member => first (mem_codeOf.mp (List.mem_of_mem_filter member))
  · rw [nesting_filter_isBracket, balanced]

private theorem withoutComments_plain_append {s : Text} (plain : ∀ c ∈ s, isPlain c = true)
    (t : Text) :
    (s ++ t).withoutComments = s ++ t.withoutComments := by
  have kept : (s.map Piece.code).flatMap Piece.withoutComment = s := by
    rw [List.flatMap_map]
    exact List.flatMap_singleton' s
  rw [withoutComments, pieces_plain_append plain, List.flatMap_append, kept, withoutComments]

namespace LeadsTo

variable {s t : Text}

private theorem closes_iff (leads : s.LeadsTo t) : s.Closes ↔ t.Closes := by
  obtain ⟨front, none, read⟩ := leads
  have other : (front.map Piece.code).getLast? ≠ some (.code '}') := by
    intro last
    obtain ⟨c, member, same⟩ := List.mem_map.mp (List.mem_of_getLast? last)
    cases same
    exact absurd (none _ member) (by decide)
  rw [Closes, Closes, read, List.getLast?_append]
  cases t.pieces.getLast? with
  | none => simpa using other
  | some p => rfl

private theorem trimStart (t : Text) : t.LeadsTo t.trimStart := by
  have leads := of_blanks (fun c (member : c ∈ t.takeWhile isBlank) =>
    List.mem_takeWhile_imp member) t.trimStart
  have whole : t.takeWhile isBlank ++ t.trimStart = t := List.takeWhile_append_dropWhile
  rwa [whole] at leads

end LeadsTo

/-- A text that ends with a brace has no blanks behind it. -/
theorem Closes.trim {t : Text} (closes : t.Closes) : t.trim.Closes := by
  obtain ⟨before, read⟩ := List.getLast?_eq_some_iff.mp closes
  have last : t.getLast? = some '}' := by
    rw [← spell_pieces t, read, spell_append]
    exact List.getLast?_concat
  obtain ⟨blanks, whole, blank⟩ := exists_eq_blanks_append_trim last (by decide)
  rw [whole] at closes
  exact (LeadsTo.of_blanks blank _).closes_iff.mp closes

private theorem Closes.trim_ne_nil {t : Text} (closes : t.Closes) : t.trim ≠ [] := by
  intro empty
  have ended := closes.trim
  rw [empty, Closes, pieces_nil] at ended
  cases ended

/-! ### Lines in place of others -/

/-- Whether a line can stand for another one in a block: it has its braces, and it ends with one
where the other does. -/
structure StandsFor (new old : Text) : Prop where
  reads : old.CommentFree → new.Reads old.braces
  closes : old.Closes → new.Closes

/-- The last line of a text without comments ends with the brace that the text ends with. -/
theorem Closes.exists_lines {t : Text} (closes : t.Closes) (free : t.CommentFree) :
    ∃ front last, t.lines = front ++ [last] ∧ last.Closes := by
  induction t using line_induction with
  | last line inLine =>
    have nonempty : line ≠ [] := by
      rintro rfl
      rw [Closes, pieces_nil] at closes
      cases closes
    refine ⟨[], line, ?_, closes⟩
    rw [lines, List.splitOn_eq_singleton inLine, linesOfParts, if_neg nonempty, List.nil_append]
  | more line t inLine ih =>
    rw [Closes, pieces_line_append inLine free, List.getLast?_append, List.getLast?_cons] at closes
    have later : t.Closes := by
      rw [Closes]
      cases last : t.pieces.getLast? with
      | none => simp [last] at closes
      | some p => simpa [last] using closes
    obtain ⟨front, last, lines, ends⟩ := ih later (free.of_line_append inLine).2
    have starts : (line ++ ['\n']).LineStarts := .inr List.getLast?_concat
    refine ⟨(line ++ ['\n']).lines ++ front, last, ?_, ends⟩
    rw [List.append_assoc, ← lines, ← lines_append starts, List.append_assoc, List.singleton_append]

namespace StandsFor

variable {news olds : List Text}

private theorem reads_unlines (stands : List.Forall₂ StandsFor news olds)
    (free : ∀ line ∈ olds, CommentFree line) : (unlines news).Reads (olds.flatMap Text.braces) := by
  have kept : news.flatMap Text.braces = olds.flatMap Text.braces ∧
      ∀ line ∈ news, CommentFree line := by
    induction stands with
    | nil => simp
    | cons first _ ih =>
      obtain ⟨here, later⟩ := List.forall_mem_cons.mp free
      obtain ⟨words, rest⟩ := ih later
      have reads := first.reads here
      refine ⟨?_, List.forall_mem_cons.mpr ⟨reads.free, rest⟩⟩
      rw [List.flatMap_cons, List.flatMap_cons, reads.braces, words]
  rw [← kept.1]
  exact Reads.unlines kept.2

private theorem closes_unlines (stands : List.Forall₂ StandsFor news olds)
    (free : ∀ line ∈ olds, CommentFree line) {last : Text} (ends : olds.getLast? = some last)
    (closes : last.Closes) : (unlines news).Closes := by
  induction stands with
  | nil => cases ends
  | cons first rest ih =>
    obtain ⟨here, later⟩ := List.forall_mem_cons.mp free
    cases rest with
    | nil =>
      cases ends
      rw [unlines_singleton]
      exact first.closes closes
    | cons next rest =>
      rw [List.getLast?_cons_cons] at ends
      rw [unlines_cons_cons, Closes, pieces_append_lineFeed (first.reads here).free.endsWithText,
        List.getLast?_append, List.getLast?_cons,
        show (pieces _).getLast? = some (.code '}') from ih later ends]
      rfl

end StandsFor

/-- A line indented anew. -/
def Reindents (new old : Text) : Prop :=
  ∃ blanks : Text, (∀ c ∈ blanks, isBlank c = true ∧ c ≠ '\n') ∧ new = blanks ++ old.trimStart

private theorem Reindents.standsFor {new old : Text} (reindents : Reindents new old) :
    StandsFor new old := by
  obtain ⟨blanks, blank, rfl⟩ := reindents
  have leads := LeadsTo.of_blanks (fun c member => (blank c member).1) old.trimStart
  refine ⟨?_, ?_⟩
  · intro free
    exact leads.reads_iff.mpr ((LeadsTo.trimStart old).reads_iff.mp ⟨free, rfl⟩)
  · intro closes
    exact leads.closes_iff.mpr ((LeadsTo.trimStart old).closes_iff.mp closes)

private theorem Reindents.trimStart_eq {new old : Text} (reindents : Reindents new old) :
    new.trimStart = old.trimStart := by
  obtain ⟨blanks, blank, rfl⟩ := reindents
  rw [trimStart, trimStart, List.dropWhile_append_of_pos fun c member => (blank c member).1]
  exact List.dropWhile_idempotent ..

private theorem Reindents.not_mem {new old : Text} (reindents : Reindents new old)
    (inLine : '\n' ∉ old) :
    '\n' ∉ new := by
  obtain ⟨blanks, blank, rfl⟩ := reindents
  intro member
  rcases List.mem_append.mp member with early | late
  · exact (blank _ early).2 rfl
  · exact inLine ((List.dropWhile_suffix isBlank).subset late)

/-! ### Static headers -/

/-- A header with `static` behind its visibility when it is missing. -/
def dueHeader (visibility rest : Text) : Text :=
  if (visibility ++ rest).mentions "static" then visibility ++ rest
  else visibility ++ ("static " ++ rest)

private theorem standsFor_asStatic (line : Text) : StandsFor line.asStatic line := by
  refine ⟨fun free => Reads.asStatic ⟨free, rfl⟩, fun closes => ?_⟩
  obtain ⟨rest, leads, made⟩ := exists_leadsTo_asStatic line
  exact made.closes_iff.mpr (leads.closes_iff.mp closes.trim)

/-- `static` right behind the visibility is a word of the header. -/
theorem mentions_static {visibility rest : Text}
    (place : visibility ∈ visibilities ∨ visibility = [])
    (starts : rest.startsWith "static " = true) :
    (visibility ++ rest).mentions "static" = true := by
  obtain ⟨tail, rfl⟩ := List.isPrefixOf_iff_prefix.mp starts
  have words : ∀ v ∈ visibilities, (∀ c ∈ v, isPlain c = true) ∧
      ∀ p ∈ (v.map Piece.code).getLast?, p.isIdent = false := by
    decide
  obtain ⟨plain, ends⟩ : (∀ c ∈ visibility, isPlain c = true) ∧
      ∀ p ∈ (visibility.map Piece.code).getLast?, p.isIdent = false := by
    rcases place with listed | rfl
    · exact words visibility listed
    · simp
  have named : isName "static" = true ∧ ∀ c ∈ ("static" : Text), isIdentChar c = true := by decide
  rw [mentions_iff_hasName]
  refine ⟨visibility.map .code, .code ' ' :: pieces tail, ?_, rfl, named.1, named.2, ends, ?_⟩
  · rw [pieces_plain_append plain, pieces_plain_append (by decide)]
    rfl
  · rintro _ ⟨⟩
    decide

/-- A header gets the form that is due unless it has `static` at another place only. -/
theorem staticHeader_eq_dueHeader_iff {visibility rest : Text}
    (place : visibility ∈ visibilities ∨ visibility = []) :
    staticHeader visibility rest = dueHeader visibility rest ↔
      ((visibility ++ rest).mentions "static" = true → rest.startsWith "static " = true) := by
  rw [staticHeader, dueHeader]
  split
  · next starts =>
    rw [if_pos (mentions_static place starts)]
    exact iff_of_true rfl fun _ => starts
  · next elsewhere =>
    split
    · next mentioned =>
      refine iff_of_false ?_ fun due => elsewhere (due mentioned)
      intro same
      exact absurd (List.append_left_eq_self.mp (List.append_cancel_left same)) (by decide)
    · next missing => exact iff_of_true rfl fun mentioned => absurd mentioned missing

private theorem not_mem_asStatic {line : Text} (inLine : '\n' ∉ line) : '\n' ∉ line.asStatic := by
  obtain ⟨visibility, rest, whole, made, -⟩ := exists_asStatic_eq line
  have inside : '\n' ∉ visibility ++ rest := fun member =>
    inLine (line.trim_isInfix.subset (whole ▸ member))
  rw [List.mem_append, not_or] at inside
  rw [made, staticHeader]
  split <;> simp [inside]

private theorem trimEnd_append (s t : Text) :
    (s ++ t).trimEnd = if t.trimEnd = [] then s.trimEnd else s ++ t.trimEnd := by
  by_cases blank : t.reverse.dropWhile isBlank = []
  · simp [trimEnd, dropEndWhile, List.dropWhile_append, blank]
  · simp [trimEnd, dropEndWhile, List.dropWhile_append, blank]

/-- A line that begins with a visibility does so after trimming, or is that visibility. -/
theorem trim_blanks_append_visibility {blanks visibility : Text}
    (blank : ∀ c ∈ blanks, isBlank c = true) (listed : visibility ∈ visibilities) (rest : Text) :
    (trim (blanks ++ (visibility ++ rest)) ++ [' '] ∈ visibilities) ∨
      visibility <+: trim (blanks ++ (visibility ++ rest)) := by
  have words : ∀ v ∈ visibilities,
      v.trimStart = v ∧ v ≠ [] ∧ v.trimEnd ++ [' '] ∈ visibilities := by
    decide
  obtain ⟨starts, nonempty, alone⟩ := words visibility listed
  have start : trimStart (blanks ++ (visibility ++ rest)) = visibility ++ rest := by
    rw [trimStart] at starts ⊢
    rw [List.dropWhile_append_of_pos blank, List.dropWhile_append, starts]
    simp [nonempty]
  rw [trim, start, trimEnd_append]
  split
  · exact .inl alone
  · exact .inr (List.prefix_append _ _)

/-! ### First lines and visible lines -/

private theorem exists_getElem?_of_linesOfParts {parts : List Text} {i : Nat} {line : Text}
    (listed : (linesOfParts parts)[i]? = some line) :
    ∃ part, parts[i]? = some part ∧ line.trim = part.trim := by
  obtain ⟨part, found, rfl | rfl⟩ := exists_part_of_getElem?_linesOfParts listed
  · exact ⟨line, found, rfl⟩
  · exact ⟨_, found, (trim_concat_blank line (by decide)).symm⟩

private theorem getElem?_lineTails {before : Text} (starts : before.LineStarts) (rest : Text) :
    (before ++ rest).lineTails[before.count '\n']? = some rest := by
  rcases starts with rfl | last
  · rfl
  · obtain ⟨front, rfl⟩ := List.getLast?_eq_some_iff.mp last
    rw [List.count_append, List.count_singleton_self, List.append_assoc, List.singleton_append,
      lineTails, List.getElem?_cons_succ]
    exact Mining.getElem?_afterLineFeeds_append front _ 0

/-- The first line of a text whose first line is not blank. -/
theorem exists_lines_eq_cons {t : Text} (visible : trim (t.takeWhile (· ≠ '\n')) ≠ []) :
    ∃ header rest, t.lines = header :: rest ∧ header.trim = trim (t.takeWhile (· ≠ '\n')) := by
  rw [lines, splitOn_eq_cons]
  cases (t.splitOn '\n').tail with
  | nil =>
    refine ⟨_, [], ?_, rfl⟩
    rw [linesOfParts, if_neg]
    intro empty
    rw [empty] at visible
    exact visible rfl
  | cons next rest => exact ⟨_, _, rfl, trim_dropReturn _⟩

/-- The lines of a text without its comments, its blank lines and the blanks in front of lines. -/
def visibleLines (t : Text) : List Text :=
  (t.withoutComments.lines.map trimStart).filter (· ≠ [])

private theorem trimStart_eq_nil_iff {t : Text} : t.trimStart = [] ↔ t.trim = [] := by
  rw [trim_eq_nil_iff, trimStart, List.dropWhile_eq_nil_iff]

private theorem visibleLines_eq {t header : Text} {rest : List Text}
    (lines : t.withoutComments.lines = header :: rest) (visible : header.trim ≠ []) :
    t.visibleLines =
      header.trimStart :: (rest.filter fun line => Text.trim line ≠ []).map trimStart := by
  have same : ((fun line : Text => decide (line ≠ [])) ∘ trimStart) =
      fun line => decide (Text.trim line ≠ []) := by
    funext line
    simp [trimStart_eq_nil_iff]
  rw [visibleLines, lines, List.map_cons, List.filter_cons_of_pos, List.filter_map, same]
  simpa [trimStart_eq_nil_iff] using visible

end Text

namespace Mining

/-! ### The text of a function -/

private theorem reindents_indentedBy (step width : Nat) (line : Text) :
    Text.Reindents (indentedBy step width line) line := by
  refine ⟨_, ?_, rfl⟩
  intro c member
  rw [List.mem_append, List.mem_cons] at member
  rcases member with (rfl | tab) | space
  · decide
  · rw [List.eq_of_mem_replicate tab]
    decide
  · rw [List.eq_of_mem_replicate space]
    decide

private theorem exists_functionBody_eq {block header : Text} {rest : List Text}
    (lines : block.withoutComments.lines = header :: rest) :
    ∃ indent : Text → Text, (∀ line, Text.Reindents (indent line) line) ∧
      functionBody block = Text.unlines
        (header.asStatic :: (rest.filter fun line => Text.trim line ≠ []).map indent) := by
  rw [functionBody, lines]
  exact ⟨fun line => indentedBy _ _ line, fun line => reindents_indentedBy _ _ line, rfl⟩

/-- The text of a function has the braces of its block and ends with the last one. -/
theorem functionBody_reads {block header : Text} {rest : List Text}
    (lines : block.withoutComments.lines = header :: rest) (closes : block.withoutComments.Closes) :
    (functionBody block).Reads block.braces ∧ (functionBody block).Closes := by
  have reads := Text.reads_withoutComments block
  obtain ⟨indent, reindents, whole⟩ := exists_functionBody_eq lines
  have stands := List.Forall₂.cons (Text.standsFor_asStatic header)
    (List.forall₂_map_left_iff.mpr (List.forall₂_same.mpr fun line
      (_ : line ∈ rest.filter fun line => Text.trim line ≠ []) => (reindents line).standsFor))
  have free : ∀ line ∈ header :: rest.filter fun line => Text.trim line ≠ [],
      Text.CommentFree line := by
    intro line member
    refine reads.free.of_mem_lines ?_
    rw [lines]
    exact List.cons_subset_cons _ (List.filter_subset_self _) member
  have word : (header :: rest.filter fun line => Text.trim line ≠ []).flatMap Text.braces =
      block.braces := by
    rw [List.flatMap_cons, Text.Reads.flatMap_braces_filter, ← List.flatMap_cons, ← lines,
      reads.flatMap_lines]
  rw [whole, ← word]
  refine ⟨Text.StandsFor.reads_unlines stands free, ?_⟩
  obtain ⟨front, last, ending, closed⟩ := closes.exists_lines reads.free
  -- the last line ends with a brace, so it is not among the blank lines
  refine Text.StandsFor.closes_unlines stands free ?_ closed
  rw [lines] at ending
  cases front with
  | nil =>
    cases ending
    rfl
  | cons first front =>
    have tail : rest = front ++ [last] := (List.cons.inj ending).2
    rw [tail, List.filter_append, List.filter_cons_of_pos (by simpa using closed.trim_ne_nil),
      List.filter_nil, ← List.cons_append, List.getLast?_concat]

/-- The lines of the text of a function are those of its block, indented anew and the first one made
static. -/
theorem splitOn_functionBody {block header : Text} {rest : List Text}
    (lines : block.withoutComments.lines = header :: rest) :
    ∃ indented, (functionBody block).splitOn '\n' = header.asStatic :: indented ∧
      indented.map Text.trimStart =
        (rest.filter fun line => Text.trim line ≠ []).map Text.trimStart := by
  obtain ⟨indent, reindents, whole⟩ := exists_functionBody_eq lines
  have inLine : ∀ line ∈ header :: rest, '\n' ∉ line := fun line member =>
    Text.not_mem_of_mem_lines (lines ▸ member)
  refine ⟨(rest.filter fun line => Text.trim line ≠ []).map indent, ?_, ?_⟩
  · rw [whole]
    refine List.splitOn_intercalate '\n' ?_ (by simp)
    refine List.forall_mem_cons.mpr ⟨Text.not_mem_asStatic (inLine _ List.mem_cons_self), ?_⟩
    intro line member
    obtain ⟨old, kept, rfl⟩ := List.mem_map.mp member
    exact (reindents old).not_mem (inLine old (.tail _ (List.mem_of_mem_filter kept)))
  · rw [List.map_map]
    exact List.map_congr_left fun line _ => (reindents line).trimStart_eq

/-! ### The block of a member -/

/-- Whether a text is the block of a library from a line on: it goes through the brace that matches
the first one. -/
def IsBlockAt (library : Text) (number : Nat) (block : Text) : Prop :=
  ∃ before after, library = before ++ (block ++ after) ∧ before.LineStarts ∧
    Text.lineAfter before = number ∧
    library.blockEnd? before.size = some (before ++ block).size

private theorem exists_of_mem_linesOf {library : Text} {line : Line}
    (member : line ∈ linesOf library) :
    ∃ before, library = before ++ line.tail ∧ before.LineStarts ∧
      Text.lineAfter before = line.number ∧
      line.text.trim = Text.trim (line.tail.takeWhile (· ≠ '\n')) := by
  obtain ⟨number, text, -, tail⟩ := getElem?_linesOf.mp (exists_getElem?_of_mem member)
  obtain ⟨part, listed, trimmed⟩ := Text.exists_getElem?_of_linesOfParts text
  obtain ⟨before, after, whole, count, starts, -⟩ := Text.exists_of_getElem?_splitOn listed
  rw [Text.splitOn_eq_map_lineTails, List.getElem?_map, tail] at listed
  rw [← count, whole, Text.getElem?_lineTails starts] at tail
  have own : part ++ after = line.tail := Option.some.inj tail
  refine ⟨before, by rw [whole, own], starts, ?_, ?_⟩
  · rw [Text.lineAfter, count]
    omega
  · rw [trimmed, ← Option.some.inj listed]

private theorem isBlockAt_of_cutBlock? {library : Text} {line : Line}
    (member : line ∈ linesOf library) (outside : line.hidden = false) {block after : Text}
    (cut : line.tail.cutBlock? = some (block, after)) : IsBlockAt library line.number block := by
  obtain ⟨before, whole, starts, number, -⟩ := exists_of_mem_linesOf member
  have listed := exists_getElem?_of_mem member
  have bound : line.number - 1 < library.lineOffsets.length :=
    Nat.lt_of_lt_of_le (List.getElem?_eq_some_iff.mp listed).1 (Cutting.length_linesOf_le library)
  obtain ⟨front, back, split, -, spelled⟩ :=
    Cutting.exists_pieces_of_not_hidden (List.getElem?_eq_getElem bound) listed outside
  have same : before = spell front := by
    refine List.append_cancel_right (whole.symm.trans ?_)
    rw [spelled, ← spell_append, ← split, Text.spell_pieces]
  refine ⟨before, after, ?_, starts, number, ?_⟩
  · rw [whole, Text.eq_append_of_cutBlock? cut]
  · rw [same, Text.blockEnd?_eq split, ← spelled, cut, Text.size_append]
    rfl

/-- The line of a member begins with its visibility. -/
theorem exists_visibility {library : Text} {line : Line} (member : line ∈ linesOf library)
    (starts : line.startsMember = true) :
    ∃ blanks visibility : Text, blanks ++ visibility <+: line.tail ∧
      (∀ c ∈ blanks, Text.isBlank c = true ∧ c ≠ '\n') ∧ visibility ∈ Text.visibilities := by
  obtain ⟨-, -, visible⟩ := Line.startsMember_iff.mp starts
  obtain ⟨-, -, -, -, trimmed⟩ := exists_of_mem_linesOf member
  obtain ⟨visibility, listed, rest, own⟩ : ∃ v ∈ Text.visibilities, v <+: line.text.trim := by
    rcases visible with shown | hidden
    · exact ⟨"public ", by decide, List.isPrefixOf_iff_prefix.mp shown⟩
    · exact ⟨"private ", by decide, List.isPrefixOf_iff_prefix.mp hidden⟩
  obtain ⟨blanks, blanks', whole, blank, -⟩ :=
    Text.exists_eq_append_trim (line.tail.takeWhile (· ≠ '\n'))
  refine ⟨blanks, visibility, ?_, fun c inBlanks => ⟨blank c inBlanks, ?_⟩, listed⟩
  · refine List.IsPrefix.trans ?_ (List.takeWhile_prefix (· ≠ '\n'))
    rw [whole, ← trimmed, ← own]
    exact ⟨rest ++ blanks', by simp⟩
  · have inPart : c ∈ line.tail.takeWhile (· ≠ '\n') := by
      rw [whole]
      exact List.mem_append_left _ inBlanks
    simpa using List.mem_takeWhile_imp inPart

/-- The block of a member begins with its visibility. -/
theorem exists_block_eq {library : Text} {line : Line} (member : line ∈ linesOf library)
    (starts : line.startsMember = true) {block after : Text}
    (cut : line.tail.cutBlock? = some (block, after)) :
    ∃ blanks visibility rest : Text, block = blanks ++ (visibility ++ rest) ∧
      (∀ c ∈ blanks, Text.isBlank c = true ∧ c ≠ '\n') ∧ visibility ∈ Text.visibilities := by
  obtain ⟨blanks, visibility, front, blank, listed⟩ := exists_visibility member starts
  have noBrace : '{' ∉ blanks ++ visibility := by
    have words : ∀ v ∈ Text.visibilities, '{' ∉ v := by decide
    rw [List.mem_append, not_or]
    exact ⟨fun inBlanks => absurd (blank _ inBlanks).1 (by decide), words visibility listed⟩
  have behind : block <+: line.tail := ⟨after, (Text.eq_append_of_cutBlock? cut).symm⟩
  rcases List.prefix_or_prefix_of_prefix front behind with inside | short
  · obtain ⟨more, rfl⟩ := inside
    exact ⟨blanks, visibility, more, by rw [List.append_assoc], blank, listed⟩
  · -- the block has a brace, so it does not end within the visibility
    obtain ⟨header, inside, -, -, -, -, rfl, -⟩ := Text.exists_of_cutBlock? cut
    refine absurd (short.subset ?_) noBrace
    simp [Piece.text]

/-- Whether a header is made static from another: `static` is put behind its visibility unless it
stands there, and that is what is due unless it stands at another place only. -/
def MadeStatic (header made : Text) : Prop :=
  ∃ visibility rest : Text, header = visibility ++ rest ∧
    (visibility ∈ Text.visibilities ∨ visibility = [] ∧ header ++ [' '] ∈ Text.visibilities) ∧
    made = Text.staticHeader visibility rest ∧
    (made = Text.dueHeader visibility rest ↔
      (header.mentions "static" = true → rest.startsWith "static " = true))

/-- Whether a text is that of a function with a given block: it has no comments, its first brace
is matched by its last character, and its lines are those of the block that are not blank without
comments, indented anew and the first one made static. -/
structure IsTextOf (body block : Text) : Prop where
  comments : body.comments = []
  whole : body.blockEnd? 0 = some body.size
  lines : ∃ header rest made indented, block.visibleLines = header :: rest ∧
    body.splitOn '\n' = ('\t' :: made) :: indented ∧ indented.map Text.trimStart = rest ∧
    MadeStatic header.trimEnd made

private theorem madeStatic_asStatic {header : Text}
    (visible : header.trim ++ [' '] ∈ Text.visibilities ∨
      ∃ v ∈ Text.visibilities, v <+: header.trim) :
    ∃ made, header.asStatic = '\t' :: made ∧ MadeStatic header.trim made := by
  obtain ⟨visibility, rest, whole, made, place⟩ := Text.exists_asStatic_eq header
  refine ⟨_, made, visibility, rest, whole, ?_, rfl, ?_⟩
  · rcases place with listed | ⟨rfl, none⟩
    · exact .inl listed
    · refine .inr ⟨rfl, visible.resolve_right ?_⟩
      rintro ⟨v, listed, prefixed⟩
      exact none v listed prefixed
  · rw [whole]
    exact Text.staticHeader_eq_dueHeader_iff (place.imp_right And.left)

/-- The first line of the block of a member has its visibility, comments or not. -/
theorem exists_header {block blanks visibility rest : Text}
    (begins : block = blanks ++ (visibility ++ rest))
    (blank : ∀ c ∈ blanks, Text.isBlank c = true ∧ c ≠ '\n')
    (listed : visibility ∈ Text.visibilities) :
    ∃ header others, block.withoutComments.lines = header :: others ∧ header.trim ≠ [] ∧
      (header.trim ++ [' '] ∈ Text.visibilities ∨ ∃ v ∈ Text.visibilities, v <+: header.trim) := by
  have words : ∀ v ∈ Text.visibilities, v ≠ [] ∧ ∀ c ∈ v, Text.isPlain c = true ∧ c ≠ '\n' := by
    decide
  obtain ⟨nonempty, plain⟩ := words visibility listed
  have stripped : block.withoutComments = blanks ++ (visibility ++ rest.withoutComments) := by
    rw [begins, Text.withoutComments_plain_append fun c member =>
        Text.isPlain_of_isBlank (blank c member).1,
      Text.withoutComments_plain_append fun c member => (plain c member).1]
  have first : block.withoutComments.takeWhile (· ≠ '\n') =
      blanks ++ (visibility ++ rest.withoutComments.takeWhile (· ≠ '\n')) := by
    rw [stripped, takeWhile_append_of_not_mem fun member => (blank _ member).2 rfl,
      takeWhile_append_of_not_mem fun member => (plain _ member).2 rfl]
  have visible := Text.trim_blanks_append_visibility (fun c member => (blank c member).1) listed
    (rest.withoutComments.takeWhile (· ≠ '\n'))
  rw [← first] at visible
  have nonblank : Text.trim (block.withoutComments.takeWhile (· ≠ '\n')) ≠ [] := by
    intro empty
    rw [empty] at visible
    rcases visible with alone | ⟨tail, same⟩
    · exact absurd alone (by decide)
    · exact nonempty (List.append_eq_nil_iff.mp same).1
  obtain ⟨header, others, lines, trimmed⟩ := Text.exists_lines_eq_cons nonblank
  rw [← trimmed] at visible nonblank
  exact ⟨header, others, lines, nonblank, visible.imp_right fun prefixed => ⟨_, listed, prefixed⟩⟩

/-- The text of a function is that of the block it is cut out with. -/
theorem isTextOf_functionBody {library : Text} {line : Line} (member : line ∈ linesOf library)
    (starts : line.startsMember = true) {block after : Text}
    (cut : line.tail.cutBlock? = some (block, after)) : IsTextOf (functionBody block) block := by
  obtain ⟨blanks, visibility, more, begins, blank, listed⟩ := exists_block_eq member starts cut
  obtain ⟨header, others, lines, nonblank, visible⟩ := exists_header begins blank listed
  obtain ⟨closes, front, inner, word, first, nested⟩ := Text.exists_braces_of_cutBlock? cut
  obtain ⟨reads, closed⟩ := functionBody_reads lines closes
  refine ⟨reads.free.comments_eq_nil, ?_, ?_⟩
  · exact Text.blockEnd?_of_braces closed (reads.braces.trans word) first nested
  · obtain ⟨indented, split, trimmed⟩ := splitOn_functionBody lines
    obtain ⟨made, static, due⟩ := madeStatic_asStatic visible
    exact ⟨header.trimStart, _, made, indented, Text.visibleLines_eq lines nonblank,
      by rw [split, static], trimmed, due⟩

/-! ### The functions of a catalog -/

/-- The function that a line of a library contributes. -/
def functionOn? (className : Option Text) (line : Line) : Option FunctionText :=
  match member? className line with
  | .ok (some (.function f)) => some f
  | _ => none

private theorem exists_of_functionOn? {className : Option Text} {line : Line} {f : FunctionText}
    (found : functionOn? className line = some f) :
    line.startsMember = true ∧
      ∃ block after, line.tail.cutBlock? = some (block, after) ∧ f.body = functionBody block := by
  rw [functionOn?, member?_eq] at found
  cases announces : line.announces? className with
  | none => simp [announces] at found
  | some announced =>
    cases announced with
    | importLine text => simp [announces, Announcement.complete, Except.map] at found
    | declaration text => simp [announces, Announcement.complete, Except.map] at found
    | function name =>
      refine ⟨startsMember_of_announces announces, ?_⟩
      cases cut : line.tail.cutBlock? with
      | none => simp [announces, Announcement.complete, Except.map, cut] at found
      | some parts =>
        obtain ⟨block, after⟩ := parts
        simp only [announces, Announcement.complete, Except.map, cut, Option.some_inj] at found
        exact ⟨block, after, rfl, by rw [← found]⟩

private theorem filterMap_function?_of_mapM {className : Option Text} {lines : List Line}
    {found : List (Option Member)} (all : lines.mapM (member? className) = .ok found) :
    (found.filterMap id).filterMap Member.function? = lines.filterMap (functionOn? className) := by
  induction lines generalizing found with
  | nil =>
    cases all
    rfl
  | cons line lines ih =>
    rw [List.mapM_cons] at all
    obtain ⟨first, here, all⟩ := exists_of_bind_eq_ok all
    obtain ⟨rest, there, all⟩ := exists_of_bind_eq_ok all
    cases all
    rw [List.filterMap_cons, List.filterMap_cons, ← ih there, functionOn?, here]
    rcases first with _ | ⟨_ | _ | _⟩ <;> rfl

end Mining

open Mining in
/-- **The functions of a library are whole blocks.** The catalog has the functions of the lines in
order, overloads merged, and each of them is the text of the block from its line on. -/
theorem Catalog.functions_ofLibrary {library : Text} {catalog : Catalog}
    (mined : Catalog.ofLibrary library = .ok catalog) :
    catalog.functions =
        mergeOverloads ((linesOf library).filterMap (functionOn? (className? library))) ∧
      ∀ line ∈ linesOf library, ∀ f, functionOn? (className? library) line = some f →
        ∃ block, IsBlockAt library line.number block ∧ IsTextOf f.body block := by
  refine ⟨?_, ?_⟩
  · obtain ⟨found, all, made⟩ := exists_of_bind_eq_ok mined
    cases made
    rw [ofParts, filterMap_function?_of_mapM all]
  · intro line member f found
    obtain ⟨starts, block, after, cut, body⟩ := exists_of_functionOn? found
    refine ⟨block, isBlockAt_of_cutBlock? member (Line.startsMember_iff.mp starts).2.1 cut, ?_⟩
    rw [body]
    exact isTextOf_functionBody member starts cut

open Mining in
/-- Comments in a header and over the end of a line, a brace in a literal, a literal without its
end, a blank line and carriage returns leave a function one block. -/
theorem Catalog.functions_ofLibrary_of_literals :
    let library : Text := "public class L \x7b\n   private int f(/* n */ int n) \x7b\r\n\r\n" ++
      "     String s = \"\x7d\"; /* two\n lines */ char c = '\x7b;\r\n" ++
      "       return n;\r\r\n   \x7d\n\x7d\n"
    let body : Text := "\tprivate static int f( int n) \x7b\n\t\tString s = \"\x7d\"; \n" ++
      "\tchar c = '\x7b;\n\t\t\treturn n;\r\n\t\x7d"
    ∃ catalog, Catalog.ofLibrary library = .ok catalog ∧ catalog.functions = [⟨"f", body⟩] ∧
      ∃ block, IsBlockAt library 2 block ∧ IsTextOf body block := by
  intro library body
  have mined : Catalog.ofLibrary library = .ok ⟨[⟨"f", body⟩], [], []⟩ := by decide +kernel
  have found : ∃ line ∈ linesOf library, line.number = 2 ∧
      functionOn? (className? library) line = some ⟨"f", body⟩ := by decide +kernel
  obtain ⟨line, member, number, contributes⟩ := found
  have block := (functions_ofLibrary mined).2 line member _ contributes
  rw [number] at block
  exact ⟨_, mined, rfl, block⟩

/-- A header with `static` behind another modifier gets a second one. -/
theorem Catalog.functions_ofLibrary_of_final :
    let library : Text := "public class L \x7b\n    public final static void f() \x7b\n" ++
      "        g();\n    \x7d\n\x7d\n"
    let rest : Text := "final static void f() \x7b"
    (Mining.linesOf library).any (·.text.trim = "public " ++ rest) = true ∧
      Text.dueHeader "public " rest = "public " ++ rest ∧
      (Catalog.ofLibrary library).toOption.map Catalog.functions =
        some [⟨"f", "\tpublic static final static void f() \x7b\n\t\tg();\n\t\x7d"⟩] := by
  decide +kernel

end ScriptLoom
