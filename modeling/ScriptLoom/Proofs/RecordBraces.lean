import ScriptLoom.Proofs.Braces
import ScriptLoom.Proofs.FormatCall
import ScriptLoom.Record

/-! # Taking structs out keeps the braces level

A struct stands at the start of a line, so what is before it and what is after it are read as they
were when it is gone, and with it goes one block. Whatever depth the braces around the text lead
to, they lead to it without the struct (`Record.replaces_of_extractAll`).
-/

namespace ScriptLoom

namespace Record

private theorem eq_of_dropWord? {word : Text} {ps after : List Piece}
    (dropped : dropWord? word ps = some after) : ps = word.map .code ++ after := by
  fun_induction dropWord? word ps with
  | case1 => cases dropped; rfl
  | case2 c word ps ih => rw [ih dropped]; rfl
  | case3 => cases dropped
  | case4 => cases dropped

/-- A struct keyword stands at the start of the text or behind a blank. -/
theorem exists_of_findKeyword? {atStart : Bool} {ps after : List Piece} {before : Text}
    (found : findKeyword? atStart ps = some (before, after)) :
    ∃ start, before = spell start ∧ ps = start ++ (Keyword.record.map .code ++ after) ∧
      (start = [] → atStart = true) ∧ ∀ p ∈ start.getLast?, p.isBlankCode = true := by
  have push : ∀ (p : Piece) {start : List Piece},
      (∀ q ∈ start.getLast?, q.isBlankCode = true) → (start = [] → p.isBlankCode = true) →
        ∀ q ∈ (p :: start).getLast?, q.isBlankCode = true := by
    intro p start last single q ends
    cases start with
    | nil =>
      obtain rfl : p = q := by simpa using ends
      exact single rfl
    | cons r start =>
      rw [List.getLast?_cons_cons] at ends
      exact last q ends
  fun_induction findKeyword? atStart ps generalizing before after with
  | case1 => cases found
  | case2 atStart c ps visible rest dropped =>
    cases found
    refine ⟨[], rfl, eq_of_dropWord? dropped, ?_, by simp⟩
    intro _
    simp_all
  | case3 atStart c ps visible _ ih =>
    obtain ⟨rest, inner, equal⟩ := Option.map_eq_some_iff.mp found
    cases equal
    obtain ⟨start, spelled, whole, nonempty, last⟩ := ih inner
    refine ⟨.code c :: start, by rw [spelled]; rfl, by rw [whole]; rfl, by simp, ?_⟩
    exact push _ last fun empty => absurd (nonempty empty) (by simp)
  | case4 atStart c ps passed ih =>
    obtain ⟨rest, inner, equal⟩ := Option.map_eq_some_iff.mp found
    cases equal
    obtain ⟨start, spelled, whole, nonempty, last⟩ := ih inner
    refine ⟨.code c :: start, by rw [spelled]; rfl, by rw [whole]; rfl, by simp, ?_⟩
    refine push _ last fun empty => ?_
    rcases Bool.or_eq_true_iff.mp (nonempty empty) with atLineStart | feed
    · simpa [atLineStart, Piece.isBlankCode] using passed
    · rw [decide_eq_true_iff.mp feed]
      decide
  | case5 atStart kind body closed ps ih =>
    obtain ⟨rest, inner, equal⟩ := Option.map_eq_some_iff.mp found
    cases equal
    obtain ⟨start, spelled, whole, nonempty, last⟩ := ih inner
    refine ⟨.region kind body closed :: start, by rw [spelled]; rfl, by rw [whole]; rfl, by simp,
      ?_⟩
    exact push _ last fun empty => absurd (nonempty empty) (by simp)

/-- The pieces that declare a struct: the keyword, a name between gaps, and the block that holds the
fields. -/
inductive Written : Record → List Piece → Prop
  | intro {gap name gap' : Text} {inside : List Piece} (gaps : ∀ c ∈ gap, Text.isGap c = true)
      (nonempty : name ≠ []) (ident : ∀ c ∈ name, isIdentChar c = true)
      (gaps' : ∀ c ∈ gap', Text.isGap c = true)
      (nested : nesting '{' '}' 0 (codeOf inside) = some 0) :
      Written ⟨name, fieldsOf (spell inside)⟩
        ((Keyword.record ++ (gap ++ (name ++ gap'))).map .code ++
          .code '{' :: (inside ++ [.code '}']))

/-- A struct that is taken out is written from its keyword on. -/
theorem exists_written_of_extractFirst {text source : Text} {found : Extraction}
    (extracted : extractFirst text source = .ok (some found)) :
    ∃ afterKeyword struct after, findKeyword? true text.pieces = some (found.before, afterKeyword) ∧
      Keyword.record.map .code ++ afterKeyword = struct ++ after ∧ Written found.record struct ∧
      found.after = spell after := by
  unfold extractFirst at extracted
  split at extracted
  · cases extracted
  · next before afterKeyword keyword =>
    dsimp only at extracted
    obtain ⟨first, gaps⟩ := eq_takeCode Text.isGap afterKeyword
    generalize takeCode Text.isGap afterKeyword = gap at *
    obtain ⟨second, ident⟩ := eq_takeCode isIdentChar gap.2
    generalize takeCode isIdentChar gap.2 = name at *
    obtain ⟨third, gaps'⟩ := eq_takeCode Text.isGap name.2
    generalize takeCode Text.isGap name.2 = gap' at *
    split at extracted
    · cases extracted
    · next nonempty =>
      split at extracted
      · next afterBrace opened =>
        split at extracted
        · cases extracted
        · next inside after closed =>
          obtain ⟨block, nested⟩ := eq_of_splitAtClose? closed
          cases extracted
          refine ⟨afterKeyword, _, after, keyword, ?_, .intro gaps nonempty ident gaps' nested, rfl⟩
          rw [first, second, third, opened, block]
          simp
      · cases extracted

/-- A struct among the pieces of a text: a header without braces behind a blank, and a block. -/
theorem exists_of_extractFirst {text source : Text} {found : Extraction}
    (extracted : extractFirst text source = .ok (some found)) :
    ∃ (start : List Piece) (header : Text) (inside after : List Piece),
      text.pieces = start ++ (header.map .code ++ .code '{' :: (inside ++ .code '}' :: after)) ∧
      (∀ c ∈ header, isBracket '{' '}' c = false) ∧
      (∀ p ∈ start.getLast?, p.isBlankCode = true) ∧
      nesting '{' '}' 0 (codeOf inside) = some 0 ∧
      found.before = spell start ∧ found.after = spell after := by
  obtain ⟨afterKeyword, struct, after, keyword, rest, written, behind⟩ :=
    exists_written_of_extractFirst extracted
  obtain ⟨start, spelled, whole, -, last⟩ := exists_of_findKeyword? keyword
  rw [rest] at whole
  generalize found.record = record at written
  obtain @⟨gap, name, gap', inside, gaps, -, ident, gaps', nested⟩ := written
  refine ⟨start, Keyword.record ++ (gap ++ (name ++ gap')), inside, after, ?_, ?_, last, nested,
    spelled, behind⟩
  · rw [whole]
    simp
  · have noBrace : ∀ c ∈ Keyword.record, isBracket '{' '}' c = false := by decide
    have noGap : ∀ c, Text.isGap c = true → isBracket '{' '}' c = false := fun c isGap =>
      isBrace_of_isBlank c (Text.isBlank_of_isGap isGap)
    intro c member
    simp only [List.mem_append] at member
    rcases member with inKeyword | early | inName | late
    · exact noBrace c inKeyword
    · exact noGap c (gaps c early)
    · by_contra brace
      rw [Bool.not_eq_false] at brace
      have either : c = '{' ∨ c = '}' := by simpa [isBracket] using brace
      rcases either with rfl | rfl <;> exact absurd (ident _ inName) (by decide)
    · exact noGap c (gaps' c late)

/-- Pieces that end with a blank do not run into what follows. -/
theorem pieces_spell_append {start after : List Piece} (first : Scanned start)
    (second : Scanned after) (last : ∀ p ∈ start.getLast?, p.isBlankCode = true) :
    Text.pieces (spell start ++ spell after) = start ++ after := by
  rw [← spell_append]
  apply Text.pieces_spell
  refine first.append_of_isBounded ?_ second
  intro p ends
  have blank := last p ends
  cases p with
  | region => cases blank
  | code c =>
    have visible : c ≠ '/' := by
      rintro rfl
      exact absurd blank (by decide)
    simpa [Piece.isBounded, Piece.isWhole, Piece.endsWithLine, Piece.endsWithText] using visible

private theorem replaces_of_extractFirst {text source : Text} {found : Extraction}
    (extracted : extractFirst text source = .ok (some found)) (free : text.CommentFree) :
    (found.before ++ found.after).CommentFree ∧
      Text.Replaces (found.before ++ found.after) text := by
  obtain ⟨start, header, inside, after, whole, silent, last, balanced, before, behind⟩ :=
    exists_of_extractFirst extracted
  have startPart : start <:+: text.pieces := by
    rw [whole]
    exact (List.prefix_append _ _).isInfix
  have afterPart : after <:+: text.pieces := by
    rw [whole]
    exact ⟨start ++ (header.map .code ++ .code '{' :: (inside ++ [.code '}'])), [], by simp⟩
  have scanned := Text.scanned_pieces text
  have read : (found.before ++ found.after).pieces = start ++ after := by
    rw [before, behind]
    exact pieces_spell_append (scanned.part startPart) (scanned.part afterPart) last
  refine ⟨?_, ?_⟩
  · intro p member
    rw [read] at member
    rcases List.mem_append.mp member with left | right
    · exact free p (startPart.subset left)
    · exact free p (afterPart.subset right)
  · intro depth final u v reached
    have none : header.filter (isBracket '{' '}') = [] := by
      simpa [List.filter_eq_nil_iff] using silent
    have old : text.braces = (codeOf start).filter (isBracket '{' '}') ++
        ('{' :: ((codeOf inside).filter (isBracket '{' '}') ++ ['}']) ++
          (codeOf after).filter (isBracket '{' '}')) := by
      rw [Text.braces, Text.codeIn, whole]
      simp [none, isBracket]
    have new : (found.before ++ found.after).braces =
        (codeOf start).filter (isBracket '{' '}') ++ (codeOf after).filter (isBracket '{' '}') := by
      rw [Text.braces, Text.codeIn, read, codeOf_append, List.filter_append]
    have block : nesting '{' '}' 0
        ('{' :: ((codeOf inside).filter (isBracket '{' '}') ++ ['}'])) = some 0 := by
      rw [nesting_cons_opening]
      refine nesting_append_eq_some.mpr ⟨1, ?_, rfl⟩
      rw [nesting_filter_isBracket]
      exact nesting_add balanced 1
    have outer : nesting '{' '}' depth ((u ++ (codeOf start).filter (isBracket '{' '}')) ++
        ('{' :: ((codeOf inside).filter (isBracket '{' '}') ++ ['}']) ++
          ((codeOf after).filter (isBracket '{' '}') ++ v))) = some final := by
      rw [old] at reached
      simpa only [List.append_assoc] using reached
    rw [new, List.append_assoc, ← List.append_assoc u]
    exact nesting_remove (by decide) block outer

/-- A text without its structs may stand in the place of the text. -/
theorem replaces_of_extractAll {className source text left : Text} {records taken : List Record}
    (extracted : extractAll className source records text = .ok (taken, left))
    (free : text.CommentFree) : left.CommentFree ∧ left.Replaces text := by
  fun_induction extractAll className source records text with
  | case1 => cases extracted
  | case2 =>
    cases extracted
    exact ⟨free, fun reached => reached⟩
  | case3 => cases extracted
  | case4 => cases extracted
  | case5 records text found first _ _ _ ih =>
    obtain ⟨free', replaces⟩ := replaces_of_extractFirst first free
    obtain ⟨leftFree, replaces'⟩ := ih extracted free'
    exact ⟨leftFree, fun reached => replaces' (replaces reached)⟩

end Record

end ScriptLoom
