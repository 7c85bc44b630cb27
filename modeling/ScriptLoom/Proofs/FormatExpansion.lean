import ScriptLoom.Proofs.DiagnosticSets
import ScriptLoom.Proofs.FormatCall
import ScriptLoom.Proofs.Lists

/-! # Expanding the calls of a checked script

In a script without problems every comment and literal is closed, the parentheses are balanced
within each line (`Text.Lined`) and the braces are balanced (`Text.Settled`). No line feed then
stands between the parentheses of a format call, so its arguments can be cut out piece by piece, and
the pieces of the expanded text are those around the call with the arguments' pieces between them
(`Text.Lined.pieces_expanded`). All three properties survive (`Text.Settled.of_expandFirst`), so
the expansion of a script without problems always succeeds
(`Text.Settled.exists_settled_expandAll`).
-/

namespace ScriptLoom

/-! ### Parentheses within lines -/

/-- The depth of parentheses after a word, if none closes nothing and every line feed stands
outside all of them. -/
def lineNesting : Nat → List Char → Option Nat
  | depth, [] => some depth
  | depth, c :: word =>
    if c = '\n' ∧ depth ≠ 0 then none
    else (nesting '(' ')' depth [c]).bind (lineNesting · word)

section LineNesting

variable {depth final : Nat} {u v w : List Char}

private theorem nesting_cons (opening closing c : Char) :
    nesting opening closing depth (c :: w) =
      (nesting opening closing depth [c]).bind (nesting opening closing · w) :=
  nesting_append (u := [c])

/-- The depth after two words is that after the second from that after the first. -/
theorem lineNesting_append :
    lineNesting depth (u ++ v) = (lineNesting depth u).bind (lineNesting · v) := by
  induction u generalizing depth with
  | nil => rfl
  | cons c u ih =>
    simp only [List.cons_append, lineNesting]
    split
    · rfl
    · cases nesting '(' ')' depth [c] <;> simp [ih]

/-- Two words have a depth exactly if there is one between them. -/
theorem lineNesting_append_eq_some :
    lineNesting depth (u ++ v) = some final ↔
      ∃ middle, lineNesting depth u = some middle ∧ lineNesting middle v = some final := by
  rw [lineNesting_append, Option.bind_eq_some_iff]

/-- Within a line the depth is that of the parentheses. -/
theorem lineNesting_of_not_mem (inLine : '\n' ∉ w) :
    lineNesting depth w = nesting '(' ')' depth w := by
  induction w generalizing depth with
  | nil => rfl
  | cons c w ih =>
    have other := List.ne_of_not_mem_cons inLine
    rw [nesting_cons, lineNesting, if_neg fun feed => other feed.1.symm]
    exact congrArg _ (funext fun _ => ih (List.not_mem_of_not_mem_cons inLine))

private theorem nesting_of_lineNesting (reached : lineNesting depth w = some final) :
    nesting '(' ')' depth w = some final := by
  induction w generalizing depth with
  | nil => exact reached
  | cons c w ih =>
    rw [lineNesting] at reached
    split at reached
    · cases reached
    · obtain ⟨middle, step, rest⟩ := Option.bind_eq_some_iff.mp reached
      rw [nesting_cons, step]
      exact ih rest

/-- Lines that are balanced one by one. -/
theorem lineNesting_of_lines {t : Text}
    (balanced : ∀ line ∈ t.splitOn '\n', nesting '(' ')' 0 line = some 0) :
    lineNesting 0 t = some 0 := by
  induction t using Text.line_induction with
  | last line inLine =>
    rw [lineNesting_of_not_mem inLine]
    exact balanced line (by rw [List.splitOn_eq_singleton inLine]; exact List.mem_singleton_self _)
  | more line t inLine ih =>
    rw [List.splitOn_append_cons_self_of_not_mem inLine] at balanced
    refine lineNesting_append_eq_some.mpr ⟨0, ?_, ?_⟩
    · rw [lineNesting_of_not_mem inLine]
      exact balanced line List.mem_cons_self
    · exact ih fun line member => balanced line (List.mem_cons_of_mem _ member)

/-- What is balanced on its own holds no line feed where it stands inside a parenthesis. -/
theorem not_mem_of_lineNesting {outer : Nat} (inner : nesting '(' ')' depth w = some final)
    (reached : lineNesting (depth + 1) w = some outer) : '\n' ∉ w := by
  induction w generalizing depth with
  | nil => exact List.not_mem_nil
  | cons c w ih =>
    rw [nesting_cons] at inner
    obtain ⟨middle, step, rest⟩ := Option.bind_eq_some_iff.mp inner
    rw [lineNesting, nesting_add step 1] at reached
    split at reached
    · cases reached
    · next feed =>
      have other : '\n' ≠ c := fun same => feed ⟨same.symm, by omega⟩
      exact List.not_mem_cons_of_ne_of_not_mem other (ih rest reached)

/-- Without brackets the depth stays. -/
theorem nesting_of_forall_ne {opening closing : Char}
    (none : ∀ c ∈ w, c ≠ opening ∧ c ≠ closing) : nesting opening closing depth w = some depth := by
  induction w with
  | nil => rfl
  | cons c w ih =>
    obtain ⟨notOpening, notClosing⟩ := none c List.mem_cons_self
    rw [nesting_cons_other notOpening notClosing]
    exact ih fun d later => none d (List.mem_cons_of_mem _ later)

end LineNesting

/-! ### Settled texts -/

/-- Whether a piece is code or a region that something closes. -/
def Piece.isClosed : Piece → Bool
  | .code _ => true
  | .region _ _ closed => closed

/-- A text in which comments and literals are closed and parentheses are balanced within each
line. -/
structure Text.Lined (t : Text) : Prop where
  closed : ∀ p ∈ t.pieces, p.isClosed = true
  lines : lineNesting 0 (lineCode t.pieces) = some 0

/-- Such a text in which braces are balanced too. -/
structure Text.Settled (t : Text) : Prop extends t.Lined where
  braces : nesting '{' '}' 0 (codeOf t.pieces) = some 0

namespace Verification

private theorem isClosed_of_spansFrom (start : Nat) {ps : List Piece}
    (closed : ∀ span ∈ spansFrom start ps, span.closed = true) :
    ∀ p ∈ ps, p.isClosed = true := by
  fun_induction spansFrom start ps with
  | case1 => nofun
  | case2 start c ps ih =>
    intro p member
    rcases List.mem_cons.mp member with rfl | later
    · rfl
    · exact ih closed p later
  | case3 start kind body isClosed ps ih =>
    intro p member
    rcases List.mem_cons.mp member with rfl | later
    · exact closed _ List.mem_cons_self
    · exact ih (fun span member => closed span (List.mem_cons_of_mem _ member)) p later

/-- If no region is reported, all of them are closed. -/
theorem isClosed_of_regionProblems {text : Text} (quiet : regionProblems text = []) :
    ∀ p ∈ text.pieces, p.isClosed = true := by
  refine isClosed_of_spansFrom 0 fun span member => ?_
  have none := List.filter_eq_nil_iff.mp (List.map_eq_nil_iff.mp quiet) span member
  simpa using none

private theorem nesting_of_braceProblems {code : Text} (quiet : braceProblems code = []) :
    nesting '{' '}' 0 (codeOf code.pieces) = some 0 := by
  rw [← Text.map_snd_code]
  have none : unmatchedBraces [] code.code = [] := List.map_eq_nil_iff.mp quiet
  exact nesting_of_unmatchedBraces none

private theorem nesting_of_parenthesisProblems {code : Text}
    (quiet : parenthesisProblems code = []) :
    ∀ line ∈ code.lines, nesting '(' ')' 0 (codeOf line.pieces) = some 0 := by
  intro line member
  obtain ⟨i, inBounds, rfl⟩ := List.getElem_of_mem member
  have numbered : (i + 1, code.lines[i]) ∈ code.numberedLines := by
    refine List.mem_map.mpr ⟨(code.lines[i], i), ?_, rfl⟩
    exact List.mem_zipIdx_iff_getElem?.mpr (List.getElem?_eq_getElem inBounds)
  have silent := List.flatMap_eq_nil_iff.mp quiet _ numbered
  rw [← Text.map_snd_code]
  refine nesting_of_parenthesisBalance (Prod.ext ?_ ?_)
  · simp only [List.append_eq_nil_iff] at silent
    by_contra opened
    exact absurd silent.1 (by simp [opened])
  · simp only [List.append_eq_nil_iff] at silent
    by_contra stray
    exact absurd silent.2 (by simp [stray])

end Verification

private theorem splitOn_codeOf (ps : List Piece) :
    (codeOf ps).splitOn '\n' = (ps.splitOn (.code '\n')).map codeOf := by
  have push : ∀ (c : Char) (parts : List (List Piece)),
      (parts.map codeOf).modifyHead (c :: ·) = (parts.modifyHead (.code c :: ·)).map codeOf := by
    rintro c (_ | ⟨part, parts⟩) <;> rfl
  have skip : ∀ (kind : Region) (body : Text) (closed : Bool) (parts : List (List Piece)),
      parts.map codeOf = (parts.modifyHead (.region kind body closed :: ·)).map codeOf := by
    rintro kind body closed (_ | ⟨part, parts⟩) <;> rfl
  induction ps with
  | nil => rfl
  | cons p ps ih =>
    rcases p with c | ⟨kind, body, closed⟩
    · rw [codeOf_cons_code, List.splitOn_cons_eq_if_modifyHead,
        List.splitOn_cons_eq_if_modifyHead, ih]
      by_cases feed : c = '\n'
      · simp [feed]
      · simp [feed, push]
    · rw [codeOf_cons_region, List.splitOn_cons_eq_if_modifyHead, ih, if_neg (by simp)]
      exact skip kind body closed _

/-- The code of the lines of a text without comments is its code on these lines. -/
theorem Text.CommentFree.splitOn_codeOf {t : Text} (free : t.CommentFree) :
    (codeOf t.pieces).splitOn '\n' =
      (t.splitOn '\n').map fun line : Text => codeOf line.pieces := by
  rw [ScriptLoom.splitOn_codeOf, ← Text.map_pieces_splitOn free, List.map_map]
  rfl

/-- A script without problems is settled. -/
theorem Text.settled_of_problemsIn {text : Text} {catalog : Catalog}
    (quiet : (problemsIn text catalog).isEmpty = true) : text.Settled := by
  have none := Diagnostics.isEmpty_ofList.mp quiet
  simp only [List.append_eq_nil_iff] at none
  obtain ⟨⟨⟨⟨⟨⟨⟨regions, braces⟩, parentheses⟩, -⟩, -⟩, -⟩, -⟩, -⟩ := none
  have code : codeOf text.withoutComments.pieces = lineCode text.pieces := by
    rw [pieces_withoutComments]
    rfl
  refine ⟨⟨Verification.isClosed_of_regionProblems regions, lineNesting_of_lines ?_⟩, ?_⟩
  · have lines := Verification.nesting_of_parenthesisProblems parentheses
    have returned : ∀ line : Text, nesting '(' ')' 0 (codeOf line.dropReturn.pieces) = some 0 ↔
        nesting '(' ')' 0 (codeOf line.pieces) = some 0 := by
      intro line
      have kept := codeIn_dropReturn isParenthesis_of_isBlank line
      rw [← nesting_filter_isBracket, ← nesting_filter_isBracket (w := codeOf line.pieces)]
      exact iff_of_eq (congrArg (nesting '(' ')' 0 · = some 0) kept)
    have parts := (forall_mem_lines _ (by simp) returned _).mp lines
    rw [← code, (commentFree_withoutComments text).splitOn_codeOf]
    simpa using parts
  · have nested := Verification.nesting_of_braceProblems braces
    rwa [code, ← nesting_filter_isBracket, filter_lineCode (by decide),
      nesting_filter_isBracket] at nested

/-! ### The arguments of a call, piece by piece -/

private theorem filter_codeOf_trimPieces {keep : Char → Bool}
    (blind : ∀ c, Text.isBlank c = true → keep c = false) (ps : List Piece) :
    (codeOf (trimPieces ps)).filter keep = (codeOf ps).filter keep := by
  have blanks : ∀ qs : List Piece, (∀ q ∈ qs, q.isBlankCode = true) →
      (codeOf qs).filter keep = [] := by
    intro qs blank
    apply List.filter_eq_nil_iff.mpr
    intro c member
    obtain ⟨q, inQs, isCode⟩ := List.mem_filterMap.mp member
    cases q with
    | code d =>
      cases isCode
      simpa using blind c (blank _ inQs)
    | region => cases isCode
  have start : ps = ps.takeWhile Piece.isBlankCode ++ ps.dropWhile Piece.isBlankCode :=
    List.takeWhile_append_dropWhile.symm
  have ending : ps.dropWhile Piece.isBlankCode =
      trimPieces ps ++ (ps.dropWhile Piece.isBlankCode).rtakeWhile Piece.isBlankCode :=
    List.rdropWhile_append_rtakeWhile.symm
  conv_rhs => rw [start, ending]
  simp only [codeOf_append, List.filter_append]
  rw [blanks _ fun q => List.mem_takeWhile_imp, blanks _ fun q => List.mem_rtakeWhile_imp,
    List.nil_append, List.append_nil]

namespace FormatCall

/-- The pieces of the arguments between the parentheses of a format call. -/
def argumentParts (inside : List Piece) : List (List Piece) :=
  let parts := (argumentPieces 0 inside).map trimPieces
  if parts = [[]] then [] else parts

/-- An argument is a part of what is between the parentheses. -/
theorem isInfix_of_mem_argumentPieces {inside part : List Piece}
    (member : part ∈ argumentPieces 0 inside) : part <:+: inside := by
  have inserted := isInfix_intercalate [.code ','] member
  rwa [(intercalate_argumentPieces 0 inside).1] at inserted

private theorem isInfix_of_mem_argumentParts {inside part : List Piece}
    (member : part ∈ argumentParts inside) : part <:+: inside := by
  simp only [argumentParts] at member
  split at member
  · cases member
  · obtain ⟨raw, inside, rfl⟩ := List.mem_map.mp member
    exact (trimPieces_isInfix raw).trans (isInfix_of_mem_argumentPieces inside)

private theorem arguments_eq_map_spell {inside : List Piece} (formed : ∀ p ∈ inside, p.WellFormed)
    (whole : ∀ p ∈ inside, p.isWhole = true) :
    arguments inside = (argumentParts inside).map spell := by
  have parts : (argumentPieces 0 inside).map (fun part => (spell part).trim) =
      ((argumentPieces 0 inside).map trimPieces).map spell := by
    rw [List.map_map]
    apply List.map_congr_left
    intro part member
    have inInside := (isInfix_of_mem_argumentPieces member).subset
    exact trim_spell (fun p later => formed p (inInside later))
      fun p later => whole p (inInside later)
  have empty : ∀ ps : List Piece, ps <:+: inside → (spell ps = [] ↔ ps = []) := by
    intro ps part
    cases ps with
    | nil => simp
    | cons p ps =>
      have visible := (formed p (part.subset List.mem_cons_self)).text_ne_nil
      simp [visible]
  have single : ((argumentPieces 0 inside).map trimPieces).map spell = [[]] ↔
      (argumentPieces 0 inside).map trimPieces = [[]] := by
    constructor
    · intro same
      obtain ⟨part, only, spelled⟩ := List.map_eq_singleton_iff.mp same
      obtain ⟨raw, only', rfl⟩ := List.map_eq_singleton_iff.mp only
      have member : raw ∈ argumentPieces 0 inside := by
        rw [only']
        exact List.mem_singleton_self raw
      have infixed := (trimPieces_isInfix raw).trans (isInfix_of_mem_argumentPieces member)
      rw [only, (empty _ infixed).mp spelled]
    · intro same
      rw [same]
      rfl
  simp only [arguments, argumentParts, parts, single]
  split <;> rfl

private theorem flatMap_filter_argumentParts {keep : Char → Bool}
    (blind : ∀ c, Text.isBlank c = true → keep c = false) (comma : keep ',' = false)
    (inside : List Piece) :
    ((argumentParts inside).flatMap fun part => (codeOf part).filter keep) =
      (codeOf inside).filter keep := by
  have between : ∀ parts : List (List Piece),
      (codeOf (List.intercalate [.code ','] parts)).filter keep =
        parts.flatMap fun part => (codeOf part).filter keep := by
    intro parts
    induction parts with
    | nil => rfl
    | cons part parts ih =>
      cases parts with
      | nil => simp [List.intercalate_singleton]
      | cons next parts =>
        rw [List.intercalate_cons_cons, codeOf_append, codeOf_append, List.filter_append,
          List.filter_append, ih]
        simp [comma]
  have trimmed : (((argumentPieces 0 inside).map trimPieces).flatMap
      fun part => (codeOf part).filter keep) = (codeOf inside).filter keep := by
    conv_rhs => rw [← (intercalate_argumentPieces 0 inside).1, between]
    simp only [List.flatMap_map, filter_codeOf_trimPieces blind]
  simp only [argumentParts]
  split
  · next empty =>
    rw [empty] at trimmed
    exact trimmed
  · exact trimmed

/-! ### Substitutions, piece by piece -/

/-- The pieces of a substitution before its argument. -/
def openingPieces : List Piece :=
  (".replaceFirst(" : Text).map .code ++ .region .string "\"%s\"" true ::
    (", java.util.regex.Matcher.quoteReplacement(String.valueOf(" : Text).map .code

/-- The pieces of the substitution of an argument. -/
def substitutionPieces (part : List Piece) : List Piece :=
  openingPieces ++ (part ++ [.code ')', .code ')', .code ')'])

private theorem spell_substitutionPieces (part : List Piece) :
    spell (substitutionPieces part) = substitution (spell part) := by
  have opening : spell openingPieces = substitutionOpening := by decide
  simp only [substitutionPieces, spell_append, opening, substitution_eq]
  rfl

private theorem spell_flatMap_substitutionPieces (parts : List (List Piece)) :
    spell (parts.flatMap substitutionPieces) = (parts.map spell).flatMap substitution := by
  induction parts with
  | nil => rfl
  | cons part parts ih =>
    rw [List.flatMap_cons, spell_append, spell_substitutionPieces, ih]
    rfl

private theorem scanned_openingPieces : Scanned openingPieces := by
  have placeholder : Text.LiteralBody '"' ['%', 's', '"'] true :=
    .char (by decide) (by decide) (by decide) (.char (by decide) (by decide) (by decide) .close)
  have literal : (Piece.region .string "\"%s\"" true).WellFormed := .literal rfl placeholder
  refine (Scanned.map_code (by decide)).append_of_isBounded (by decide) ?_
  refine .cons literal (Scanned.map_code (by decide)) ?_
  intro q _
  exact Piece.fits_of_isBounded (by decide) q

private theorem getLast?_substitutionPieces (part : List Piece) :
    (substitutionPieces part).getLast? = some (.code ')') := by
  simp [substitutionPieces]

private theorem scanned_substitutionPieces {part : List Piece} (scanned : Scanned part)
    (whole : ∀ p ∈ part, p.isWhole = true) : Scanned (substitutionPieces part) := by
  have closing : Scanned [.code ')', .code ')', .code ')'] :=
    Scanned.map_code (s := [')', ')', ')']) (by decide)
  refine scanned_openingPieces.append_of_isBounded (by decide) (scanned.append closing ?_)
  intro p last q head
  obtain rfl : .code ')' = q := by simpa using head
  obtain ⟨noLine, noText⟩ := Piece.isWhole_iff.mp (whole p (List.mem_of_getLast? last))
  refine ⟨fun _ => ?_, ?_, noText⟩
  · decide
  · intro line
    simp [noLine] at line

private theorem nesting_openingPieces (depth : Nat) :
    nesting '(' ')' depth (codeOf openingPieces) = some (depth + 3) := by
  have fromZero : nesting '(' ')' 0 (codeOf openingPieces) = some 3 := by decide
  have shifted := nesting_add fromZero depth
  rwa [Nat.zero_add, Nat.add_comm] at shifted

/-- Substitutions leave the depth where their arguments would. -/
theorem nesting_substitutionPieces {depth final : Nat} {parts : List (List Piece)}
    (reached : nesting '(' ')' depth (parts.flatMap codeOf) = some final) :
    nesting '(' ')' depth (codeOf (parts.flatMap substitutionPieces)) = some final := by
  induction parts generalizing depth with
  | nil => exact reached
  | cons part parts ih =>
    rw [List.flatMap_cons] at reached
    obtain ⟨middle, first, rest⟩ := nesting_append_eq_some.mp reached
    rw [List.flatMap_cons, substitutionPieces, codeOf_append, codeOf_append, codeOf_append]
    refine nesting_append_eq_some.mpr ⟨middle, ?_, ih rest⟩
    refine nesting_append_eq_some.mpr ⟨depth + 3, nesting_openingPieces depth, ?_⟩
    exact nesting_append_eq_some.mpr ⟨middle + 3, nesting_add first 3, rfl⟩

/-! ### An expanded call -/

/-- The pieces after the expansion of a call. -/
def Site.expanded {ps : List Piece} (site : Site ps) : List Piece :=
  site.before ++ .region .string site.body true ::
    ((argumentParts site.inside).flatMap substitutionPieces ++ site.after)

namespace Site

variable {ps : List Piece} (site : Site ps)

private theorem start_isPrefix : site.before ++ [.region .string site.body true] <+: ps := by
  conv_rhs => rw [site.whole]
  exact ⟨site.gap.map .code ++ .code '%' :: (site.gap'.map .code ++ .code '(' ::
    (site.inside ++ .code ')' :: site.after)), by simp⟩

/-- What is between the parentheses of a call is a part of the text. -/
theorem inside_isInfix : site.inside <:+: ps := by
  conv_rhs => rw [site.whole]
  exact ⟨site.before ++ .region .string site.body true :: (site.gap.map .code ++ .code '%' ::
    (site.gap'.map .code ++ [.code '('])), .code ')' :: site.after, by simp⟩

private theorem after_isSuffix : site.after <:+ ps := by
  conv_rhs => rw [site.whole]
  exact ⟨site.before ++ .region .string site.body true :: (site.gap.map .code ++ .code '%' ::
    (site.gap'.map .code ++ .code '(' :: (site.inside ++ [.code ')']))), by simp⟩

private theorem mem_of_mem_expanded {p : Piece} (member : p ∈ site.expanded) :
    p ∈ ps ∨ p ∈ openingPieces ∨ p = .code ')' := by
  have start := site.start_isPrefix.subset
  rcases List.mem_append.mp member with before | rest
  · exact .inl (start (List.mem_append_left _ before))
  · rcases List.mem_cons.mp rest with rfl | rest
    · exact .inl (start (List.mem_append_right _ (List.mem_singleton_self _)))
    · rcases List.mem_append.mp rest with substituted | after
      · obtain ⟨part, inParts, inPart⟩ := List.mem_flatMap.mp substituted
        simp only [substitutionPieces, List.mem_append] at inPart
        rcases inPart with opening | argument | closing
        · exact .inr (.inl opening)
        · have inInside := (isInfix_of_mem_argumentParts inParts).subset argument
          exact .inl (site.inside_isInfix.subset inInside)
        · exact .inr (.inr (by simpa using closing))
      · exact .inl (site.after_isSuffix.subset after)

/-- A class without blanks, the comma, the percent sign and parentheses has the same code
characters after an expansion. -/
theorem filter_codeOf_expanded {keep : Char → Bool}
    (blind : ∀ c, Text.isBlank c = true → keep c = false) (comma : keep ',' = false)
    (sign : keep '%' = false) (opening : keep '(' = false ∧ (codeOf openingPieces).filter keep = [])
    (closing : keep ')' = false) :
    (codeOf site.expanded).filter keep = (codeOf ps).filter keep := by
  have gaps : ∀ gap : Text, (∀ c ∈ gap, Text.isGap c = true) → gap.filter keep = [] := by
    intro gap isGap
    apply List.filter_eq_nil_iff.mpr
    intro c member
    simpa using blind c (Text.isBlank_of_isGap (isGap c member))
  have substituted : (codeOf ((argumentParts site.inside).flatMap substitutionPieces)).filter keep =
      (codeOf site.inside).filter keep := by
    rw [← flatMap_filter_argumentParts blind comma site.inside]
    induction argumentParts site.inside with
    | nil => rfl
    | cons part parts ih =>
      rw [List.flatMap_cons, List.flatMap_cons, codeOf_append, List.filter_append, ih]
      simp [substitutionPieces, opening.2, closing]
  conv_rhs => rw [site.whole]
  simp [expanded, substituted, gaps _ site.isGap, gaps _ site.isGap', sign, opening.1, closing]

/-- The substitutions of arguments on one line are on one line. -/
theorem not_mem_lineCode_substitutions (inLine : '\n' ∉ lineCode site.inside) :
    '\n' ∉ lineCode ((argumentParts site.inside).flatMap substitutionPieces) := by
  rw [lineCode_flatMap, List.mem_flatMap]
  rintro ⟨part, member, feed⟩
  simp only [substitutionPieces, lineCode_append, List.mem_append] at feed
  rcases feed with opening | argument | closing
  · exact absurd opening (by decide)
  · exact inLine (lineCode_subset (isInfix_of_mem_argumentParts member) argument)
  · exact absurd closing (by decide)

private theorem lineNesting_expanded {depth : Nat}
    (first : lineNesting 0 (lineCode site.before) = some depth)
    (inLine : '\n' ∉ lineCode site.inside)
    (last : lineNesting depth (lineCode site.after) = some 0) :
    lineNesting 0 (lineCode site.expanded) = some 0 := by
  have parts := site.not_mem_lineCode_substitutions inLine
  have level : nesting '(' ')' depth ((argumentParts site.inside).flatMap codeOf) = some depth := by
    have closes := nesting_add site.closes depth
    rw [Nat.zero_add, ← nesting_filter_isBracket,
      ← flatMap_filter_argumentParts isParenthesis_of_isBlank (by decide), ← List.filter_flatMap,
      nesting_filter_isBracket] at closes
    exact closes
  rw [expanded, lineCode_append, lineCode_cons_literal (by decide), lineCode_append]
  refine lineNesting_append_eq_some.mpr ⟨depth, first, ?_⟩
  refine lineNesting_append_eq_some.mpr ⟨depth, ?_, last⟩
  rw [lineNesting_of_not_mem parts, lineCode_eq_codeOf parts]
  exact nesting_substitutionPieces level

end Site

end FormatCall

namespace Text

namespace Lined

variable {t : Text}

/-- The depths before a call and inside its parenthesis. -/
theorem exists_depth (lined : t.Lined) {before rest : List Piece} {body gap gap' : Text}
    (gaps : ∀ c ∈ gap, isGap c = true) (gaps' : ∀ c ∈ gap', isGap c = true)
    (whole : t.pieces = before ++ .region .string body true ::
      (gap.map .code ++ .code '%' :: (gap'.map .code ++ .code '(' :: rest))) :
    ∃ depth, lineNesting 0 (lineCode before) = some depth ∧
      lineNesting (depth + 1) (lineCode rest) = some 0 := by
  have lines := lined.lines
  rw [whole, lineCode_append, lineCode_cons_literal (by decide)] at lines
  obtain ⟨depth, first, after⟩ := lineNesting_append_eq_some.mp lines
  have sign : lineCode (gap.map .code ++ .code '%' :: (gap'.map .code ++ .code '(' :: rest)) =
      (gap ++ '%' :: gap') ++ '(' :: lineCode rest := by
    simp
  rw [sign] at after
  obtain ⟨depth', between, later⟩ := lineNesting_append_eq_some.mp after
  have level : nesting '(' ')' depth (gap ++ '%' :: gap') = some depth := by
    apply nesting_of_forall_ne
    intro c member
    have visible : isGap c = true ∨ c = '%' := by
      rcases List.mem_append.mp member with inGap | inRest
      · exact .inl (gaps c inGap)
      · rcases List.mem_cons.mp inRest with rfl | inGap
        · exact .inr rfl
        · exact .inl (gaps' c inGap)
    constructor <;> rintro rfl <;> simp [isGap] at visible
  obtain rfl : depth = depth' := by
    simpa [level] using nesting_of_lineNesting between
  exact ⟨depth, first, by simpa [lineNesting, nesting] using later⟩

/-- A format call of such a text is closed. -/
theorem exists_expandFirst (lined : t.Lined) : ∃ result, t.expandFirst = .ok result := by
  unfold expandFirst
  split
  · exact ⟨none, rfl⟩
  · next call found =>
    obtain ⟨before, body, gap, gap', whole, -, -, gaps, gaps'⟩ := FormatCall.exists_of_find? found
    obtain ⟨depth, -, inside⟩ := lined.exists_depth gaps gaps' whole
    have nested := nesting_of_lineNesting inside
    rw [← nesting_filter_isBracket, filter_lineCode (by decide), nesting_filter_isBracket] at nested
    obtain ⟨arguments, after, split⟩ := exists_splitAtClose? (by decide) nested
    rw [split]
    exact ⟨_, rfl⟩

variable (lined : t.Lined) (site : FormatCall.Site t.pieces)

include lined

/-- Between the parentheses of a call there is no line feed, and behind them the depth is that
before the call. -/
theorem depths_of_site :
    ∃ depth, lineNesting 0 (lineCode site.before) = some depth ∧ '\n' ∉ lineCode site.inside ∧
      lineNesting depth (lineCode site.after) = some 0 := by
  obtain ⟨depth, first, inner⟩ := lined.exists_depth site.isGap site.isGap' site.whole
  rw [lineCode_append] at inner
  obtain ⟨depth', inside, after⟩ := lineNesting_append_eq_some.mp inner
  have closes := site.closes
  rw [← nesting_filter_isBracket, ← filter_lineCode (by decide), nesting_filter_isBracket] at closes
  have inLine : '\n' ∉ lineCode site.inside := by
    have shifted := nesting_add closes depth
    rw [Nat.zero_add] at shifted
    exact not_mem_of_lineNesting shifted inside
  have level := nesting_add closes (depth + 1)
  rw [Nat.zero_add, nesting_of_lineNesting inside] at level
  obtain rfl : depth' = depth + 1 := by simpa using level
  exact ⟨depth, first, inLine, by simpa [lineNesting, nesting] using after⟩

/-- The pieces between the parentheses of a call end by themselves. -/
theorem isWhole_of_mem_inside : ∀ p ∈ site.inside, p.isWhole = true := by
  intro p member
  obtain ⟨-, -, inLine, -⟩ := lined.depths_of_site site
  have inText : p ∈ t.pieces := by
    rw [site.whole]
    simp [member]
  have closed := lined.closed p inText
  apply Piece.isWhole_iff.mpr
  constructor
  · -- a piece that only the end of its line ends would need a line feed behind it
    by_contra ends
    obtain ⟨left, right, split⟩ := List.append_of_mem member
    have next : ∃ q rest, right ++ .code ')' :: site.after = q :: rest ∧ q ≠ .code '\n' := by
      cases right with
      | nil => exact ⟨.code ')', site.after, rfl, by decide⟩
      | cons q right =>
        refine ⟨q, right ++ .code ')' :: site.after, rfl, ?_⟩
        rintro rfl
        have feed : site.inside = (left ++ [p]) ++ .code '\n' :: right := by simp [split]
        apply inLine
        rw [feed, lineCode_append, lineCode_cons_code]
        exact List.mem_append_right _ List.mem_cons_self
    obtain ⟨q, rest, behind, other⟩ := next
    have pair : [p, q] <:+: t.pieces := by
      refine ⟨site.before ++ .region .string site.body true :: (site.gap.map .code ++ .code '%' ::
        (site.gap'.map .code ++ .code '(' :: left)), rest, ?_⟩
      conv_rhs => rw [site.whole, split]
      simp [behind]
    have fits := ((scanned_pieces t).part pair).fits
    rw [List.isChain_pair] at fits
    exact other (fits.line (by simpa using ends))
  · cases p with
    | code c => rfl
    | region kind body isClosed =>
      cases kind <;> simp_all [Piece.endsWithText, Piece.isClosed]

/-- The pieces of an expanded text. -/
theorem pieces_expanded {next : Text}
    (expanded : next = spell site.before ++ site.body ++
      (FormatCall.arguments site.inside).flatMap FormatCall.substitution ++ spell site.after) :
    next.pieces = site.expanded := by
  have scanned := scanned_pieces t
  have whole := lined.isWhole_of_mem_inside site
  have inside := scanned.part site.inside_isInfix
  have spelled : next = spell site.expanded := by
    rw [expanded, FormatCall.arguments_eq_map_spell inside.wellFormed whole,
      ← FormatCall.spell_flatMap_substitutionPieces]
    simp [FormatCall.Site.expanded, Piece.text]
  rw [spelled]
  apply pieces_spell
  have parts : ∀ part ∈ FormatCall.argumentParts site.inside,
      Scanned (FormatCall.substitutionPieces part) := by
    intro part member
    have inInside := FormatCall.isInfix_of_mem_argumentParts member
    exact FormatCall.scanned_substitutionPieces (inside.part inInside)
      fun p later => whole p (inInside.subset later)
  have ends : ∀ part ∈ FormatCall.argumentParts site.inside,
      ∀ p ∈ (FormatCall.substitutionPieces part).getLast?, p.isBounded = true := by
    intro part _ p last
    rw [FormatCall.getLast?_substitutionPieces] at last
    obtain rfl : .code ')' = p := by simpa using last
    decide
  obtain ⟨substitutions, bounded⟩ := Scanned.flatMap parts ends
  have behind : Scanned site.after := scanned.part site.after_isSuffix.isInfix
  have start : Scanned (site.before ++ [.region .string site.body true]) :=
    scanned.part site.start_isPrefix.isInfix
  have whole' := start.append_of_isBounded (by simp [Piece.isBounded, Piece.isWhole,
    Piece.endsWithLine, Piece.endsWithText]) (substitutions.append_of_isBounded bounded behind)
  simpa [FormatCall.Site.expanded] using whole'

/-- An expansion leaves a text of the same kind. -/
theorem of_expandFirst {next : Text} (expanded : t.expandFirst = .ok (some next)) :
    next.Lined := by
  obtain ⟨site, spelled⟩ := exists_site_of_expandFirst expanded
  have read := lined.pieces_expanded site spelled
  refine ⟨?_, ?_⟩
  · intro p member
    rw [read] at member
    rcases site.mem_of_mem_expanded member with old | opening | rfl
    · exact lined.closed p old
    · have closed : ∀ q ∈ FormatCall.openingPieces, q.isClosed = true := by decide
      exact closed p opening
    · rfl
  · obtain ⟨depth, first, inLine, last⟩ := lined.depths_of_site site
    rw [read]
    exact site.lineNesting_expanded first inLine last

omit lined in
/-- A text that is closed and balanced on each line is expanded to the end, and the result is so
too. -/
theorem exists_lined_expandAll (lined : t.Lined) : ∃ r, t.expandAll = .ok r ∧ r.Lined := by
  have step : ∀ {s next : Text}, s.Lined → s.expandFirst = .ok (some next) → next.Lined :=
    fun lined expanded => lined.of_expandFirst expanded
  obtain ⟨r, expanded⟩ := exists_expandAll step (fun lined => lined.exists_expandFirst) lined
  exact ⟨r, expanded, (of_expandAll step lined expanded).1⟩

end Lined

namespace Settled

variable {t : Text}

/-- An expansion leaves a settled text. -/
theorem of_expandFirst (settled : t.Settled) {next : Text}
    (expanded : t.expandFirst = .ok (some next)) : next.Settled := by
  refine ⟨settled.toLined.of_expandFirst expanded, ?_⟩
  obtain ⟨site, spelled⟩ := exists_site_of_expandFirst expanded
  have kept := site.filter_codeOf_expanded isBrace_of_isBlank (by decide) (by decide) (by decide)
    (by decide)
  rw [settled.pieces_expanded site spelled, ← nesting_filter_isBracket, kept,
    nesting_filter_isBracket]
  exact settled.braces

/-- The expansion of a settled text succeeds and leaves a settled text. -/
theorem exists_settled_expandAll (settled : t.Settled) : ∃ r, t.expandAll = .ok r ∧ r.Settled := by
  have step : ∀ {s next : Text}, s.Settled → s.expandFirst = .ok (some next) → next.Settled :=
    fun settled expanded => settled.of_expandFirst expanded
  obtain ⟨r, expanded⟩ := exists_expandAll step (fun settled => settled.exists_expandFirst) settled
  exact ⟨r, expanded, (of_expandAll step settled expanded).1⟩

end Settled

/-- No expansion of a settled text brings a comment in. -/
theorem CommentFree.of_expandFirst {t next : Text} (free : t.CommentFree) (settled : t.Settled)
    (expanded : t.expandFirst = .ok (some next)) : next.CommentFree := by
  obtain ⟨site, spelled⟩ := exists_site_of_expandFirst expanded
  intro p member
  rw [settled.pieces_expanded site spelled] at member
  rcases site.mem_of_mem_expanded member with old | opening | rfl
  · exact free p old
  · have code : ∀ q ∈ FormatCall.openingPieces, q.isComment = false := by decide
    exact code p opening
  · rfl

end Text

end ScriptLoom
