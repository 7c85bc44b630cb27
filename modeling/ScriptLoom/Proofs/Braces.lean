import ScriptLoom.Proofs.Lines
import ScriptLoom.SourceUnit

/-! # The braces of a text

The braces outside comments and literals are a word (`Text.braces`). A text without comments can be
cut into lines and put together again, with blanks and blank lines added or dropped, and the word
stays what it was: a literal does not go over the end of its line. `Text.Reads` says that a text
is free of comments and has a given word, and the lemmas follow the ways in which texts are built.
-/

namespace ScriptLoom

namespace Text

/-- The braces of a text outside comments and literals. -/
def braces (t : Text) : Text :=
  t.codeIn (isBracket '{' '}')

/-- A text without comments whose braces are a given word. -/
structure Reads (t word : Text) : Prop where
  free : t.CommentFree
  braces : t.braces = word

/-- The depth after a text depends on its braces only. -/
theorem nesting_braces (depth : Nat) (t : Text) :
    nesting '{' '}' depth t.braces = nesting '{' '}' depth (codeOf t.pieces) :=
  nesting_filter_isBracket

private theorem braces_append {s t : Text} (read : (s ++ t).pieces = s.pieces ++ t.pieces) :
    (s ++ t).braces = s.braces ++ t.braces := by
  simp [braces, codeIn, read]

private theorem braces_withoutComments (t : Text) : t.withoutComments.braces = t.braces := by
  rw [braces, codeIn, pieces_withoutComments]
  exact filter_lineCode (by decide) _

/-- Without its comments a text reads as its braces. -/
theorem reads_withoutComments (t : Text) : t.withoutComments.Reads t.braces :=
  ⟨commentFree_withoutComments t, braces_withoutComments t⟩

/-- A text without the characters of braces has none in its code. -/
theorem braces_eq_nil {t : Text} (none : ∀ c ∈ t, isBracket '{' '}' c = false) :
    t.braces = [] := by
  apply List.filter_eq_nil_iff.mpr
  intro c member
  obtain ⟨p, inPieces, isCode⟩ := List.mem_filterMap.mp member
  have inText : c ∈ spell t.pieces := by
    cases p with
    | code d =>
      cases isCode
      exact List.mem_flatMap.mpr ⟨_, inPieces, List.mem_singleton_self c⟩
    | region => cases isCode
  rw [spell_pieces] at inText
  simp [none c inText]

/-- Whether a text is code without braces and then another text. -/
def LeadsTo (s t : Text) : Prop :=
  ∃ front : Text, (∀ c ∈ front, isBracket '{' '}' c = false) ∧
    s.pieces = front.map .code ++ t.pieces

namespace LeadsTo

variable {s t u word : Text}

/-- What leads to a text leads to all that the text leads to. -/
theorem trans (first : s.LeadsTo t) (second : t.LeadsTo u) : s.LeadsTo u := by
  obtain ⟨front, none, read⟩ := first
  obtain ⟨front', none', read'⟩ := second
  refine ⟨front ++ front', ?_, ?_⟩
  · intro c member
    rcases List.mem_append.mp member with early | late
    · exact none c early
    · exact none' c late
  · rw [read, read', List.map_append, List.append_assoc]

/-- The braces are those of the text behind the code. -/
theorem reads_iff (leads : s.LeadsTo t) : s.Reads word ↔ t.Reads word := by
  obtain ⟨front, none, read⟩ := leads
  have free : s.CommentFree ↔ t.CommentFree := by
    simp only [CommentFree, read, List.forall_mem_append, and_iff_right_iff_imp]
    intro _ p member
    obtain ⟨c, -, rfl⟩ := List.mem_map.mp member
    rfl
  have braces : s.braces = t.braces := by
    have silent : front.filter (isBracket '{' '}') = [] := by
      simpa [List.filter_eq_nil_iff] using none
    rw [Text.braces, Text.braces, codeIn, codeIn, read, codeOf_append, codeOf_map_code,
      List.filter_append, silent]
    rfl
  constructor
  · exact fun reads => ⟨free.mp reads.free, braces ▸ reads.braces⟩
  · exact fun reads => ⟨free.mpr reads.free, braces ▸ reads.braces⟩

/-- Plain characters that are no braces lead to what follows. -/
theorem of_plain (plain : ∀ c ∈ s, isPlain c = true)
    (none : ∀ c ∈ s, isBracket '{' '}' c = false) (t : Text) : (s ++ t).LeadsTo t :=
  ⟨s, none, pieces_plain_append plain t⟩

/-- Blanks lead to what follows. -/
theorem of_blanks {blanks : Text} (blank : ∀ c ∈ blanks, isBlank c = true) (t : Text) :
    (blanks ++ t).LeadsTo t :=
  of_plain (fun c member => isPlain_of_isBlank (blank c member))
    (fun c member => isBrace_of_isBlank c (blank c member)) t

end LeadsTo

namespace Reads

variable {s t u v word : Text}

/-- The empty text reads as the empty word. -/
theorem nil : Reads [] [] :=
  ⟨by simp [CommentFree], by simp [Text.braces, codeIn]⟩

private theorem append (first : s.Reads u) (second : t.Reads v)
    (read : (s ++ t).pieces = s.pieces ++ t.pieces) : (s ++ t).Reads (u ++ v) := by
  refine ⟨?_, ?_⟩
  · intro p member
    rw [read] at member
    rcases List.mem_append.mp member with left | right
    · exact first.free p left
    · exact second.free p right
  · rw [braces_append read, first.braces, second.braces]

/-- Plain characters without braces change nothing before a text. -/
theorem plain_append (reads : t.Reads word) (plain : ∀ c ∈ s, isPlain c = true)
    (none : ∀ c ∈ s, isBracket '{' '}' c = false) : (s ++ t).Reads word :=
  (LeadsTo.of_plain plain none t).reads_iff.mpr reads

/-- Blanks before a text change nothing. -/
theorem blanks_append (reads : t.Reads word) {blanks : Text}
    (blank : ∀ c ∈ blanks, isBlank c = true) : (blanks ++ t).Reads word :=
  (LeadsTo.of_blanks blank t).reads_iff.mpr reads

/-- Blanks around a text change nothing. -/
theorem trim (reads : t.Reads word) : t.trim.Reads word :=
  ⟨commentFree_trim.mpr reads.free, (codeIn_trim isBrace_of_isBlank t).trans reads.braces⟩

/-- Texts on different lines read as their words one after the other. -/
theorem append_lineFeed (first : s.Reads u) (second : t.Reads v) :
    (s ++ '\n' :: t).Reads (u ++ v) := by
  have blank : ∀ c ∈ ['\n'], isBlank c = true := by decide
  have plain : ∀ c ∈ ['\n'], isPlain c = true := by decide
  refine first.append (second.blanks_append blank) ?_
  exact (pieces_append_lineFeed first.free.endsWithText t).trans
    (congrArg (s.pieces ++ ·) (pieces_plain_append plain t).symm)

/-- Lines read as the braces of all of them. -/
theorem unlines {ls : List Text} (free : ∀ line ∈ ls, CommentFree line) :
    (Text.unlines ls).Reads (ls.flatMap Text.braces) := by
  induction ls with
  | nil => exact .nil
  | cons line ls ih =>
    have first : line.Reads line.braces := ⟨free line List.mem_cons_self, rfl⟩
    have rest := ih fun line later => free line (List.mem_cons_of_mem _ later)
    cases ls with
    | nil => simpa using first
    | cons next ls =>
      rw [unlines_cons_cons, List.flatMap_cons]
      exact first.append_lineFeed rest

/-- The braces of the lines make up the word of a text. -/
theorem flatMap_lines (reads : t.Reads word) : t.lines.flatMap Text.braces = word := by
  rw [← reads.braces]
  exact flatMap_codeIn_lines isBrace_of_isBlank reads.free

/-- The word of a text is put together from its lines. -/
theorem flatMap_splitOn (reads : t.Reads word) : (t.splitOn '\n').flatMap Text.braces = word := by
  have parts := unlines fun line member => reads.free.of_mem_splitOn member
  rw [← parts.braces, ← reads.braces]
  exact congrArg _ (List.intercalate_splitOn '\n')

/-- Lines changed one by one, each keeping its braces. -/
theorem unlines_map_lines (reads : t.Reads word) {change : Text → Text}
    (keeps : ∀ line : Text, line.CommentFree → (change line).Reads line.braces) :
    (Text.unlines (t.lines.map change)).Reads word := by
  have each : ∀ line ∈ t.lines, (change line).Reads line.braces := fun line member =>
    keeps line (reads.free.of_mem_lines member)
  have changed : (t.lines.map change).flatMap Text.braces = word := by
    rw [← reads.flatMap_lines, List.flatMap_map]
    exact List.flatMap_congr fun line member => (each line member).braces
  rw [← changed]
  apply unlines
  intro line member
  obtain ⟨raw, inLines, rfl⟩ := List.mem_map.mp member
  exact (each raw inLines).free

/-- Indentation changes no braces. -/
theorem indent (reads : t.Reads word) (depth : Nat) : (t.indent depth).Reads word := by
  apply reads.unlines_map_lines
  intro line free
  refine blanks_append ⟨free, rfl⟩ ?_
  intro c member
  rw [List.eq_of_mem_replicate member]
  decide

/-- A blank line has no braces. -/
theorem braces_of_trim_eq_nil {line : Text} (blank : line.trim = []) : line.braces = [] := by
  have kept : line.trim.braces = line.braces := codeIn_trim isBrace_of_isBlank line
  rw [← kept, blank]
  exact nil.braces

/-- Blank lines have no braces. -/
theorem flatMap_braces_filter (ls : List Text) :
    (ls.filter fun line => Text.trim line ≠ []).flatMap Text.braces = ls.flatMap Text.braces := by
  induction ls with
  | nil => rfl
  | cons line ls ih =>
    by_cases blank : Text.trim line = []
    · simpa [blank, braces_of_trim_eq_nil blank] using ih
    · simpa [blank] using ih

/-- Taking out blank lines changes no braces. -/
theorem withoutBlankLines (reads : t.Reads word) : t.withoutBlankLines.Reads word := by
  rw [← reads.flatMap_lines, ← flatMap_braces_filter, Text.withoutBlankLines]
  exact unlines fun line member => reads.free.of_mem_lines (List.mem_of_mem_filter member)

/-- Lines made of items, each with the braces of its item. -/
theorem unlines_filterMap {α : Type} {make : α → Option Text} {word : α → Text} {items : List α}
    (made : ∀ item ∈ items, ∀ text, make item = some text → text.Reads (word item))
    (missing : ∀ item ∈ items, make item = none → word item = []) :
    (Text.unlines (items.filterMap make)).Reads (items.flatMap word) := by
  have lines : (∀ line ∈ items.filterMap make, CommentFree line) ∧
      (items.filterMap make).flatMap Text.braces = items.flatMap word := by
    induction items with
    | nil => exact ⟨nofun, rfl⟩
    | cons item items ih =>
      obtain ⟨restFree, rest⟩ := ih (fun item later => made item (List.mem_cons_of_mem _ later))
        fun item later => missing item (List.mem_cons_of_mem _ later)
      cases result : make item with
      | none =>
        rw [List.filterMap_cons_none result, List.flatMap_cons,
          missing item List.mem_cons_self result]
        exact ⟨restFree, rest⟩
      | some text =>
        have own := made item List.mem_cons_self text result
        rw [List.filterMap_cons_some result, List.flatMap_cons, List.flatMap_cons, own.braces, rest]
        refine ⟨?_, rfl⟩
        intro line member
        rcases List.mem_cons.mp member with rfl | later
        · exact own.free
        · exact restFree line later
  rw [← lines.2]
  exact unlines lines.1

/-- Lines without braces read as the empty word. -/
theorem unlines_filterMap_nil {α : Type} {make : α → Option Text} {items : List α}
    (made : ∀ item ∈ items, ∀ text, make item = some text → text.Reads []) :
    (Text.unlines (items.filterMap make)).Reads [] := by
  have reads := unlines_filterMap made fun _ _ _ => rfl
  have none : (items.flatMap fun _ => ([] : Text)) = [] :=
    List.flatMap_eq_nil_iff.mpr fun _ _ => rfl
  rwa [none] at reads

/-- Paragraphs read as the braces of all of them. -/
theorem join {ls : List Text} (free : ∀ line ∈ ls, CommentFree line) :
    (Text.join "\n\n" ls).Reads (ls.flatMap Text.braces) := by
  induction ls with
  | nil => exact .nil
  | cons line ls ih =>
    have first : line.Reads line.braces := ⟨free line List.mem_cons_self, rfl⟩
    have rest := ih fun line later => free line (List.mem_cons_of_mem _ later)
    cases ls with
    | nil => simpa [Text.join, List.intercalate_singleton] using first
    | cons next ls =>
      have blank : ∀ c ∈ ['\n'], isBlank c = true := by decide
      have joined := first.append_lineFeed (rest.blanks_append blank)
      simpa [Text.join, List.intercalate_cons_cons] using joined

/-! ### Units -/

private theorem endLine_append (first : t.Reads u) (second : s.Reads v) :
    (SourceUnit.endLine t ++ s).Reads (u ++ v) := by
  unfold SourceUnit.endLine
  split
  · next ended =>
    obtain ⟨start, rfl⟩ := List.isSuffixOf_iff_suffix.mp ended
    have blank : isBlank '\n' = true := by decide
    have begun : Reads start u := ⟨(commentFree_concat_blank blank).mp first.free,
      (codeIn_concat isBrace_of_isBlank start blank).symm.trans first.braces⟩
    simpa using begun.append_lineFeed second
  · simpa using first.append_lineFeed second

/-- The empty text reads as nothing else. -/
theorem eq_nil (reads : Reads [] word) : word = [] :=
  reads.braces.symm.trans nil.braces

/-- The braces of a rendered unit are those of its slots in template order. -/
theorem render {unit : SourceUnit} {word : Slot → Text}
    (each : ∀ slot, (unit.get slot).Reads (word slot)) :
    unit.render.Reads (Slot.template.flatMap word) := by
  unfold SourceUnit.render
  induction Slot.template with
  | nil => exact .nil
  | cons slot slots ih =>
    rw [List.flatMap_cons, List.flatMap_cons]
    split
    · next empty =>
      have own := each slot
      rw [empty] at own
      simpa [own.eq_nil] using ih
    · exact (each slot).endLine_append ih

/-- A unit reads the same without its blank lines. -/
theorem compact {unit : SourceUnit} (reads : unit.render.Reads word) : unit.compact.Reads word := by
  have ended : ∀ ls : List Text, (∀ line ∈ ls, CommentFree line) →
      Reads (ls.flatMap (· ++ ['\n'])) (ls.flatMap Text.braces) := by
    intro ls free
    induction ls with
    | nil => exact .nil
    | cons line ls ih =>
      have first : line.Reads line.braces := ⟨free line List.mem_cons_self, rfl⟩
      have rest := ih fun line later => free line (List.mem_cons_of_mem _ later)
      simpa using first.append_lineFeed rest
  rw [← reads.flatMap_lines, ← flatMap_braces_filter]
  exact ended _ fun line member => reads.free.of_mem_lines (List.mem_of_mem_filter member)

/-- A text that is appended to a slot is read behind what the slot holds. -/
theorem slot_append {unit : SourceUnit} {slot : Slot} (first : (unit.get slot).Reads u)
    (second : t.Reads v) : ((unit.append slot t).get slot).Reads (u ++ v) := by
  unfold SourceUnit.append
  rw [SourceUnit.get_fill_self]
  split
  · next empty =>
    rw [empty] at first
    simpa [first.eq_nil] using second
  · exact first.endLine_append second

end Reads

/-- Whether a text may stand in the place of another: whatever braces are around the place, the
depths they lead to stay. -/
def Replaces (t s : Text) : Prop :=
  ∀ {depth final : Nat} {u v : Text},
    nesting '{' '}' depth (u ++ (s.braces ++ v)) = some final →
      nesting '{' '}' depth (u ++ (t.braces ++ v)) = some final

/-! ### Code without braces -/

/-- A text that is read as code from end to end and has no braces. -/
structure Silent (t : Text) : Prop where
  bare : t.pieces = t.map .code
  braceless : ∀ c ∈ t, isBracket '{' '}' c = false

namespace Silent

variable {s t word : Text}

/-- The parts of a silent text are silent. -/
theorem part (silent : t.Silent) (part : s <:+: t) : s.Silent := by
  refine ⟨?_, fun c member => silent.braceless c (part.subset member)⟩
  have inText : s.map .code <:+: t.pieces := by
    rw [silent.bare]
    exact part.map Piece.code
  have own := pieces_spell_part inText
  rwa [spell_map_code] at own

/-- A silent text reads as the empty word. -/
theorem reads (silent : t.Silent) : t.Reads [] := by
  refine ⟨?_, braces_eq_nil silent.braceless⟩
  intro p member
  rw [silent.bare] at member
  obtain ⟨c, -, rfl⟩ := List.mem_map.mp member
  rfl

/-- Such a text and a connecting word lead to whatever follows. -/
theorem leadsTo (silent : s.Silent) (connective : Text)
    (plain : ∀ c ∈ connective, isPlain c = true ∧ isBracket '{' '}' c = false)
    (apart : connective.head? ≠ none ∧ connective.head? ≠ some '*') (t : Text) :
    (s ++ connective ++ t).LeadsTo t := by
  have rest : (connective ++ t).LeadsTo t :=
    .of_plain (fun c member => (plain c member).1) (fun c member => (plain c member).2) t
  rw [List.append_assoc]
  refine LeadsTo.trans ⟨s, silent.braceless, ?_⟩ rest
  rw [← silent.bare]
  apply pieces_append
  intro p last
  rw [silent.bare] at last
  obtain ⟨d, -, rfl⟩ := List.mem_map.mp (List.mem_of_getLast? last)
  refine ⟨fun _ => ?_, nofun, nofun⟩
  cases connective with
  | nil => exact absurd rfl apart.1
  | cons c connective =>
    have slash : c ≠ '/' := by
      rintro rfl
      exact absurd (plain '/' List.mem_cons_self).1 (by decide)
    simpa [slash] using apart.2

end Silent

/-- The part of a text without comments before any quote is code. -/
theorem pieces_append_of_unquoted {s t : Text} (unquoted : ∀ c ∈ s, Region.ofQuote? c = none)
    (free : (s ++ t).CommentFree) : (s ++ t).pieces = s.map .code ++ t.pieces := by
  induction s with
  | nil => rfl
  | cons c s ih =>
    have read : pieces (c :: (s ++ t)) = .code c :: pieces (s ++ t) := by
      apply pieces_code (unquoted c List.mem_cons_self)
      rintro rfl
      constructor <;>
      · intro head
        obtain ⟨rest, split⟩ := List.head?_eq_some_iff.mp head
        rw [List.cons_append, split, CommentFree, pieces] at free
        exact absurd (free _ List.mem_cons_self) (by simp [Piece.isComment])
    rw [List.cons_append, read, List.map_cons, List.cons_append, ih]
    · exact fun d later => unquoted d (List.mem_cons_of_mem _ later)
    · intro p member
      rw [List.cons_append, CommentFree, read] at free
      exact free p (List.mem_cons_of_mem _ member)

/-- In front of the first quote, a text without comments and braces is silent and leads to the
rest. -/
theorem silent_of_unquoted {s t : Text} (free : (s ++ t).CommentFree)
    (none : ∀ c ∈ s, isBracket '{' '}' c = false ∧ Region.ofQuote? c = none) :
    s.Silent ∧ (s ++ t).LeadsTo t := by
  have read := pieces_append_of_unquoted (fun c member => (none c member).2) free
  refine ⟨⟨?_, fun c member => (none c member).1⟩, s, fun c member => (none c member).1, read⟩
  have own : pieces (spell (s.map .code)) = s.map .code :=
    pieces_spell_part ⟨[], t.pieces, read.symm⟩
  rwa [spell_map_code] at own

end Text

end ScriptLoom
