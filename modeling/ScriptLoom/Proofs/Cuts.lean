import ScriptLoom.Proofs.KeywordSearch
import ScriptLoom.Proofs.Lists

/-! # Every cut is between characters

The passes cut texts at byte ranges: around comments and names, in front of assignment operators,
at the parentheses of a format call and the commas in it, at line starts, at the braces of functions
and structs, and at the line that a message is about. Each place where a pass does so is listed as a
`Cutting`: the ranges, as they are computed from byte offsets, and the parts that the pass goes on
with. Every range lies in its text, splits no character and holds its part, whatever the text
(`Cutting.Site.sound_cutting`).
-/

namespace ScriptLoom

open Text

/-- Parts that are cut out of a text, and the byte ranges at which they are cut. -/
structure Cutting where
  text : Text
  ranges : List (Nat × Nat)
  parts : List Text
  deriving DecidableEq, Repr

namespace Cutting

/-- Whether each range is one of the text, between characters, and holds its part. -/
def Sound (cutting : Cutting) : Prop :=
  List.Forall₂ cutting.text.SlicesTo cutting.ranges cutting.parts

/-! ### Comments -/

/-- The ranges between spans and those of the spans, from a place on. -/
def rangesAround (stop cursor : Nat) : List Span → List (Nat × Nat)
  | [] => [(cursor, stop)]
  | span :: spans => (cursor, span.start) :: (span.start, span.stop)
    :: rangesAround stop span.stop spans

/-- The texts between comments and the comments, in turn. -/
def partsAround : List Piece → List Text
  | [] => [[]]
  | .region .comment body _ :: ps => [] :: body :: partsAround ps
  | p :: ps => (partsAround ps).modifyHead (p.text ++ ·)

/-- The cuts around comments. -/
def comments (t : Text) : Cutting :=
  ⟨t, rangesAround t.size 0 t.comments, partsAround t.pieces⟩

private theorem forall₂_partsAround {t : Text} (before middle : Text) {ps : List Piece}
    (whole : t = before ++ (middle ++ spell ps)) :
    List.Forall₂ t.SlicesTo
      (rangesAround t.size (size before)
        ((spansFrom (size before + size middle) ps).filter (·.kind = .comment)))
      ((partsAround ps).modifyHead (middle ++ ·)) := by
  induction ps generalizing before middle with
  | nil =>
    subst whole
    refine .cons ?_ .nil
    simpa using slicesTo_right before middle
  | cons p ps ih =>
    -- A piece that is no comment goes to the text in front of the next comment.
    have kept : partsAround (p :: ps) = (partsAround ps).modifyHead (p.text ++ ·) →
        (spansFrom (size before + size middle) (p :: ps)).filter (·.kind = .comment) =
          (spansFrom (size before + size (middle ++ p.text)) ps).filter (·.kind = .comment) →
        List.Forall₂ t.SlicesTo
          (rangesAround t.size (size before)
            ((spansFrom (size before + size middle) (p :: ps)).filter (·.kind = .comment)))
          ((partsAround (p :: ps)).modifyHead (middle ++ ·)) := by
      intro parts spans
      have rest := ih before (middle ++ p.text) (by simpa using whole)
      rw [parts, spans, List.modifyHead_modifyHead]
      simpa [Function.comp_def] using rest
    cases p with
    | code c => exact kept rfl (by simp [spansFrom, Piece.text, Nat.add_assoc])
    | region kind body closed =>
      by_cases comment : kind = .comment
      · subst comment
        have rest := ih (before ++ (middle ++ body)) [] (by simpa [Piece.text] using whole)
        rw [modifyHead_nil_append] at rest
        subst whole
        rw [spansFrom, List.filter_cons_of_pos (by simp), rangesAround, partsAround,
          List.modifyHead_cons, List.append_nil]
        refine .cons (slicesTo_append before middle _) (.cons ?_ ?_)
        · simpa [Piece.text] using slicesTo_append (before ++ middle) body (spell ps)
        · simpa [Nat.add_assoc] using rest
      · refine kept (by cases kind <;> simp_all [partsAround]) ?_
        rw [spansFrom, List.filter_cons_of_neg (by simpa using comment)]
        simp [Piece.text, Nat.add_assoc]

private theorem sound_comments (t : Text) : (comments t).Sound := by
  have parts := forall₂_partsAround [] [] (spell_pieces t).symm
  rw [modifyHead_nil_append] at parts
  exact parts

/-- The parts around comments with only the line feeds of the comments. -/
def uncomment : List Text → Text
  | [] => []
  | [part] => part
  | part :: comment :: rest => part ++ comment.filter (· = '\n') ++ uncomment rest

private theorem uncomment_modifyHead (s : Text) {parts : List Text} (nonempty : parts ≠ []) :
    uncomment (parts.modifyHead (s ++ ·)) = s ++ uncomment parts := by
  match parts with
  | [] => exact absurd rfl nonempty
  | [_] => rfl
  | _ :: _ :: _ => simp [uncomment]

/-- A text without its comments is put together from the parts around them. -/
theorem withoutComments_eq_uncomment (t : Text) :
    t.withoutComments = uncomment (partsAround t.pieces) := by
  have each : ∀ ps : List Piece,
      partsAround ps ≠ [] ∧ ps.flatMap Piece.withoutComment = uncomment (partsAround ps) := by
    intro ps
    fun_induction partsAround ps with
    | case1 => exact ⟨List.cons_ne_nil _ _, rfl⟩
    | case2 body closed ps ih =>
      refine ⟨List.cons_ne_nil _ _, ?_⟩
      rw [List.flatMap_cons, ih.2, uncomment]
      rfl
    | case3 p ps notComment ih =>
      have kept : p.withoutComment = p.text := by
        cases p with
        | code c => rfl
        | region kind body closed => cases kind <;> simp_all [Piece.withoutComment]
      refine ⟨by simpa using ih.1, ?_⟩
      rw [List.flatMap_cons, ih.2, uncomment_modifyHead _ ih.1, kept]
  exact (each t.pieces).2

/-! ### Names -/

/-- The cuts at the names of a text. -/
def names (t : Text) : Cutting :=
  ⟨t, t.identifiers.map fun ident => (ident.offset, ident.offset + size ident.name), t.names⟩

/-- The cuts in front of the names of a text. -/
def beforeNames (t : Text) : Cutting :=
  ⟨t, t.identifiers.map fun ident => (0, ident.offset),
    t.identifiers.map fun ident => ident.before.reverse⟩

private theorem sound_names (t : Text) : (names t).Sound := by
  refine List.forall₂_map_left_iff.mpr (List.forall₂_map_right_iff.mpr (List.forall₂_same.mpr ?_))
  intro ident member
  obtain ⟨after, -, whole⟩ := exists_of_mem_identifiers member
  have cut := slicesTo_append ident.before.reverse ident.name after
  rwa [← whole, size_reverse] at cut

private theorem sound_beforeNames (t : Text) : (beforeNames t).Sound := by
  refine List.forall₂_map_left_iff.mpr (List.forall₂_map_right_iff.mpr (List.forall₂_same.mpr ?_))
  intro ident member
  obtain ⟨after, -, whole⟩ := exists_of_mem_identifiers member
  have cut := slicesTo_left ident.before.reverse (ident.name ++ after)
  rwa [← whole, size_reverse] at cut

/-- The cuts in front of the assignment operators of a text. -/
def operands (t : Text) : Cutting :=
  ⟨t, (Verification.operatorsFrom t 0 t.code).map fun i => (0, i),
    (Verification.assignments [] t.pieces).map List.reverse⟩

private theorem sound_operands (t : Text) : (operands t).Sound := by
  have places : Verification.operatorsFrom t 0 t.code =
      (Verification.assignments [] t.pieces).map fun operand => size operand.reverse :=
    Verification.operatorsFrom_eq [] (scanned_pieces t).wellFormed (spell_pieces t).symm
      (Nat.zero_le _)
  rw [Sound, operands, places, List.map_map]
  refine List.forall₂_map_left_iff.mpr (List.forall₂_map_right_iff.mpr (List.forall₂_same.mpr ?_))
  intro operand member
  obtain ⟨after, -, whole⟩ := Verification.exists_of_mem_assignments member
  rw [spell_pieces] at whole
  have cut := slicesTo_left operand.reverse after
  rwa [← whole] at cut

/-- The offset behind the last byte that no name has. -/
def runOffset (t : Text) : Nat :=
  t.size - (t.bytes.reverse.takeWhile (byteIn isIdentChar)).length

/-- The cut at the name that ends a text. -/
def lastName (t : Text) : Cutting :=
  ⟨t.trimEnd, [(runOffset t.trimEnd, t.trimEnd.size)], [t.lastRun]⟩

private theorem sound_lastName (t : Text) : (lastName t).Sound := by
  have run : t.lastRun = (t.trimEnd.reverse.takeWhile isIdentChar).reverse := by
    rw [lastRun, trimEnd, dropEndWhile, List.reverse_reverse]
  refine .cons ?_ .nil
  change t.trimEnd.SlicesTo _ _
  rw [run]
  generalize t.trimEnd = u
  have parts := congrArg List.reverse
    (List.takeWhile_append_dropWhile (p := isIdentChar) (l := u.reverse))
  rw [List.reverse_append, List.reverse_reverse] at parts
  have cut := slicesTo_right (u.reverse.dropWhile isIdentChar).reverse
    (u.reverse.takeWhile isIdentChar).reverse
  have place : runOffset u = size (u.reverse.dropWhile isIdentChar).reverse := by
    have sizes := congrArg size parts
    rw [size_append, size_reverse (u.reverse.takeWhile isIdentChar)] at sizes
    rw [runOffset,
      length_takeWhile_reverse_bytes (p := isIdentChar) fun _ => utf8Size_of_isIdentChar]
    omega
  rwa [parts, ← place] at cut

/-- The cut in front of the parenthesis of a function header. -/
def header (t : Text) : Cutting :=
  ⟨t, (t.bytes.idxOf? '('.toUInt8).toList.map fun i => (0, i),
    (t.cutAt? '(').toList.map fun cut => cut.1⟩

private theorem sound_header (t : Text) : (header t).Sound := by
  rw [Sound, header, idxOf?_bytes rfl]
  cases cut : t.cutAt? '(' with
  | none => exact .nil
  | some parts =>
    refine .cons ?_ .nil
    rw [(cutAt?_eq_some cut).1]
    exact slicesTo_left parts.1 _

/-- The cuts around the class that an import line brings in. -/
def imported (line : Text) : Cutting where
  text := line.trim
  ranges := match line.trim.lastByte? ';'.toUInt8 with
    | none => []
    | some stop => (0, stop) ::
      ((line.trim.takeBytes stop).lastByte? '.'.toUInt8).toList.map fun dot => (dot + 1, stop)
  parts := match line.trim.cutAtLast? (· = ';') with
    | none => []
    | some (path, _) => path :: (path.cutAtLast? (· = '.')).toList.map fun cut => cut.2

private theorem sound_imported (line : Text) : (imported line).Sound := by
  rw [Sound, imported]
  simp only
  rw [lastByte?_eq rfl]
  cases cut : line.trim.cutAtLast? (· = ';') with
  | none => exact .nil
  | some parts =>
    obtain ⟨path, after⟩ := parts
    obtain ⟨c, -, whole⟩ := cutAtLast?_eq_some cut
    simp only [Option.map_some]
    rw [whole, takeBytes_append, lastByte?_eq rfl]
    refine .cons (slicesTo_left path _) ?_
    cases inner : path.cutAtLast? (· = '.') with
    | none => exact .nil
    | some parts =>
      obtain ⟨package, name⟩ := parts
      obtain ⟨d, dot, rfl⟩ := cutAtLast?_eq_some inner
      obtain rfl : d = '.' := of_decide_eq_true dot
      refine .cons ?_ .nil
      have place := slicesTo_append (package ++ ['.']) name (c :: after)
      simpa [show '.'.utf8Size = 1 from rfl, Nat.add_assoc] using place

/-! ### Format calls -/

/-- The ranges between the commas that stand inside no bracket, among code characters up to a place,
`depth` brackets being open. -/
def argumentRanges (stop : Nat) : Nat → Nat → List (Nat × Char) → List (Nat × Nat)
  | _, start, [] => [(start, stop)]
  | depth, start, (i, c) :: code =>
    if c = '(' ∨ c = '[' ∨ c = '{' then argumentRanges stop (depth + 1) start code
    else if c = ')' ∨ c = ']' ∨ c = '}' then argumentRanges stop (depth - 1) start code
    else if c = ',' ∧ depth = 0 then (start, i) :: argumentRanges stop depth (i + 1) code
    else argumentRanges stop depth start code

/-- The cuts at the first format call: up to its literal, at its arguments and behind it. -/
def call (t : Text) : Cutting where
  text := t
  ranges := ((do
    let (stop, opening) ← FormatCall.at? t
    let close ← t.matchingBracket? opening '(' ')'
    let inside := t.code.filter fun (i, _) => opening < i && i < close
    return (0, stop) :: (argumentRanges close 0 (opening + 1) inside ++ [(close + 1, t.size)]) :
      Option (List (Nat × Nat)))).getD []
  parts := ((do
    let call ← FormatCall.find? t.pieces
    let (inside, after) ← splitAtClose? '(' ')' 0 call.rest
    return call.literal :: ((FormatCall.argumentPieces 0 inside).map spell ++ [spell after]) :
      Option (List Text))).getD []

private theorem map_spell_modifyHead (middle : Text) (p : Piece) (parts : List (List Piece)) :
    ((parts.modifyHead (p :: ·)).map spell).modifyHead (middle ++ ·) =
      (parts.map spell).modifyHead (middle ++ p.text ++ ·) := by
  cases parts <;> simp

private theorem forall₂_argumentPieces {t : Text} (before middle : Text) (depth : Nat)
    {inside : List Piece} {after : Text} {stop : Nat}
    (whole : t = before ++ (middle ++ (spell inside ++ after)))
    (stops : stop = size before + size middle + size (spell inside)) :
    List.Forall₂ t.SlicesTo
      (argumentRanges stop depth (size before) (codeFrom (size before + size middle) inside))
      (((FormatCall.argumentPieces depth inside).map spell).modifyHead (middle ++ ·)) := by
  fun_induction FormatCall.argumentPieces depth inside generalizing before middle with
  | case1 depth =>
    subst whole stops
    exact .cons (by simpa using slicesTo_append before middle after) .nil
  | case2 depth c ps opens ih =>
    have rest := ih before (middle ++ [c]) (by simpa [Piece.text] using whole)
      (by simpa [Piece.text, Nat.add_assoc] using stops)
    rw [codeFrom, argumentRanges, if_pos opens, map_spell_modifyHead]
    simpa [Piece.text, Nat.add_assoc] using rest
  | case3 depth c ps inner closes ih =>
    have rest := ih before (middle ++ [c]) (by simpa [Piece.text] using whole)
      (by simpa [Piece.text, Nat.add_assoc] using stops)
    rw [codeFrom, argumentRanges, if_neg inner, if_pos closes, map_spell_modifyHead]
    simpa [Piece.text, Nat.add_assoc] using rest
  | case4 depth c ps inner outer comma ih =>
    -- A comma ends the part so far, and the next one starts behind it.
    obtain ⟨rfl, rfl⟩ := comma
    have one : ','.utf8Size = 1 := rfl
    have rest := ih (before ++ (middle ++ [','])) [] (by simpa [Piece.text] using whole)
      (by simpa [Piece.text, Nat.add_assoc] using stops)
    rw [modifyHead_nil_append] at rest
    rw [codeFrom, argumentRanges, if_neg inner, if_neg outer, if_pos ⟨rfl, rfl⟩, List.map_cons,
      List.modifyHead_cons, spell_nil, List.append_nil]
    refine .cons ?_ (by simpa [one, Nat.add_assoc] using rest)
    rw [whole]
    exact slicesTo_append before middle _
  | case5 depth c ps inner outer other ih =>
    have rest := ih before (middle ++ [c]) (by simpa [Piece.text] using whole)
      (by simpa [Piece.text, Nat.add_assoc] using stops)
    rw [codeFrom, argumentRanges, if_neg inner, if_neg outer, if_neg other, map_spell_modifyHead]
    simpa [Piece.text, Nat.add_assoc] using rest
  | case6 depth p ps notCode ih =>
    have rest := ih before (middle ++ p.text) (by simpa using whole)
      (by simpa [Nat.add_assoc] using stops)
    rw [map_spell_modifyHead]
    cases p with
    | code c => exact absurd rfl (notCode c)
    | region kind body closed =>
      rw [codeFrom]
      simpa [Piece.text, Nat.add_assoc] using rest

private theorem sound_call (t : Text) : (call t).Sound := by
  have one : '('.utf8Size = 1 := rfl
  have one' : ')'.utf8Size = 1 := rfl
  rw [Sound, call]
  simp only
  rw [FormatCall.at?_eq]
  cases found : FormatCall.find? t.pieces with
  | none => exact .nil
  | some call =>
    obtain ⟨before, body, gap, gap', whole, literal, percent, -⟩ := FormatCall.exists_of_find? found
    -- The pieces in front of the parenthesis, and what they spell.
    obtain ⟨front, split, spelled⟩ : ∃ front, t.pieces = front ++ .code '(' :: call.rest ∧
        spell front = call.literal ++ call.percent := by
      refine ⟨before ++ .region .string body true ::
        (gap.map .code ++ .code '%' :: gap'.map .code), ?_, ?_⟩
      · rw [whole]
        simp
      · rw [literal, percent]
        simp [Piece.text]
    have place : size (spell front) = size call.literal + size call.percent := by
      rw [spelled, size_append]
    have bracket := matchingBracket?_eq split ')'
    rw [place] at bracket
    simp only [FormatCall.offsetsBehind, size_nil, Nat.zero_add, Option.map_some,
      Option.bind_eq_bind, Option.bind_some, bracket]
    cases closes : splitAtClose? '(' ')' 0 call.rest with
    | none => exact .nil
    | some parts =>
      obtain ⟨inside, after⟩ := parts
      rw [(eq_of_splitAtClose? closes).1] at split
      have between := filter_code_between split
      rw [place] at between
      have text : t =
          call.literal ++ (call.percent ++ '(' :: (spell inside ++ ')' :: spell after)) := by
        rw [← spell_pieces t, split, spell_append, spelled]
        simp [Piece.text]
      have opened : t = (call.literal ++ (call.percent ++ ['('])) ++
          ([] ++ (spell inside ++ ')' :: spell after)) := by
        simpa using text
      have arguments := forall₂_argumentPieces _ [] 0 opened rfl
      simp only [Option.map_some, Option.bind_some, Option.pure_def, Option.getD_some, between]
      refine .cons ?_ (List.rel_append ?_ (.cons ?_ .nil))
      · rw [text]
        exact slicesTo_left call.literal _
      · rw [modifyHead_nil_append] at arguments
        simpa [one, Nat.add_assoc] using arguments
      · have rest := slicesTo_right
          (call.literal ++ (call.percent ++ '(' :: (spell inside ++ [')']))) (spell after)
        have joined : call.literal ++ (call.percent ++ '(' :: (spell inside ++ [')'])) ++
            spell after = t := by
          rw [text]
          simp
        rw [joined] at rest
        simpa [one, one', Nat.add_assoc] using rest

/-! ### Lines -/

/-- The cuts at the lines of a text. -/
def lines (t : Text) : Cutting :=
  ⟨t, t.lineOffsets.map fun start => (start, (t.lineRange start).2),
    t.lineTails.map fun tail => tail.takeWhile (· ≠ '\n')⟩

/-- The cuts from the start of each line on. -/
def tails (t : Text) : Cutting :=
  ⟨t, t.lineOffsets.map fun start => (start, t.size), t.lineTails⟩

/-- The cuts from the first visible character of each line on. -/
def bodies (t : Text) : Cutting :=
  ⟨t, t.bodyOffsets.map fun start => (start, t.size),
    t.lineTails.map fun tail => tail.drop (leading tail).length⟩

/-- The rest of a line, from a place on it. -/
theorem slicesTo_line (before tail : Text) :
    SlicesTo (before ++ tail) (size before, (lineRange (before ++ tail) (size before)).2)
      (tail.takeWhile (· ≠ '\n')) := by
  have cut := slicesTo_append before (tail.takeWhile (· ≠ '\n')) (tail.dropWhile (· ≠ '\n'))
  rw [List.takeWhile_append_dropWhile] at cut
  rwa [lineRange_snd_append]

private theorem sound_lines (t : Text) : (lines t).Sound := by
  refine List.forall₂_map_left_iff.mpr (List.forall₂_map_right_iff.mpr ?_)
  refine (forall₂_lineTails t).imp ?_
  rintro start tail ⟨before, rfl, rfl, -⟩
  exact slicesTo_line before tail

private theorem sound_tails (t : Text) : (tails t).Sound := by
  refine List.forall₂_map_left_iff.mpr ((forall₂_lineTails t).imp ?_)
  rintro start tail ⟨before, rfl, rfl, -⟩
  exact slicesTo_right before tail

private theorem sound_bodies (t : Text) : (bodies t).Sound := by
  rw [Sound, bodies, bodyOffsets, List.map_map]
  refine List.forall₂_map_left_iff.mpr (List.forall₂_map_right_iff.mpr ?_)
  refine (forall₂_lineTails t).imp fun start tail line => ?_
  have place := line.bodyOffset_eq
  obtain ⟨before, rfl, rfl, -⟩ := line
  have split : tail = leading tail ++ tail.drop (leading tail).length := by
    have initial : leading tail <+: tail :=
      (List.takeWhile_prefix _).trans (List.takeWhile_prefix _)
    exact List.prefix_append_drop initial
  have cut := slicesTo_right (before ++ leading tail) (tail.drop (leading tail).length)
  rw [List.append_assoc, ← split, size_append, ← place] at cut
  exact cut

/-- The cut at the line that holds an offset, be it past the end or inside of a character. -/
def lineAt (position : Nat) (t : Text) : Cutting :=
  ⟨t, [t.lineRange position], [((t.splitOn '\n')[t.lineNumberAt position - 1]?).getD []]⟩

private theorem sound_lineAt (position : Nat) (t : Text) : (lineAt position t).Sound := by
  obtain ⟨before, line, after, whole, listed, number, starts, ends, inLine⟩ :=
    exists_lineAt t position
  rw [Sound, lineAt, listed]
  subst whole
  refine .cons ?_ .nil
  rw [lineRange_of_lineNumberAt inLine starts ends number]
  exact slicesTo_append before line after

/-! ### Functions -/

/-- The lines of code of a script, put together. -/
def codeText (text : Text) : Text :=
  unlines ((Script.codeLines text).map (·.2))

private theorem commentFree_codeText (text : Text) : (codeText text).CommentFree :=
  (Reads.unlines fun _ member => (Script.trimmedLine_of_mem_codeLines member).free).free

/-- The cuts at the functions of a script: behind the keyword up to the closing brace, behind the
brace, and there up to the end of the line. -/
def functions (text : Text) : Cutting where
  text := codeText text
  ranges := (codeText text).lineOffsets.flatMap fun start =>
    if ((codeText text).dropBytes start).startsWith Keyword.function then
      match (codeText text).blockEnd? start with
      | none => []
      | some stop => [(start + size Keyword.function, stop), (stop, (codeText text).size),
          (stop, ((codeText text).lineRange stop).2)]
    else []
  parts := (codeText text).lineTails.flatMap fun tail =>
    if tail.startsWith Keyword.function then
      match tail.cutBlock? with
      | none => []
      | some (block, after) =>
        [block.drop Keyword.function.length, after, after.takeWhile (· ≠ '\n')]
    else []

private theorem sound_functions (text : Text) : (functions text).Sound := by
  have free := commentFree_codeText text
  rw [Sound, functions]
  simp only
  generalize codeText text = t at *
  refine List.rel_flatMap (forall₂_lineTails t) fun start tail line => ?_
  obtain ⟨front, back, split, rfl, rfl⟩ := line.exists_pieces free
  have whole : t = spell front ++ spell back := by rw [← spell_append, ← split, spell_pieces]
  rw [show t.dropBytes (size (spell front)) = spell back by rw [whole, dropBytes_append]]
  split
  · next starts =>
    rw [blockEnd?_eq split]
    cases cut : (spell back).cutBlock? with
    | none => exact .nil
    | some parts =>
      obtain ⟨block, after⟩ := parts
      obtain ⟨own, -, -, rfl, joined, -⟩ := Script.exists_of_function_cutBlock? starts cut
      rw [joined] at whole
      rw [← List.append_assoc] at whole
      have body := slicesTo_append (spell front ++ Keyword.function) own after
      have rest := slicesTo_right (spell front ++ (Keyword.function ++ own)) after
      have line := slicesTo_line (spell front ++ (Keyword.function ++ own)) after
      rw [← whole] at rest line
      rw [← List.append_assoc, List.append_assoc (spell front), ← whole] at body
      refine .cons ?_ (.cons ?_ (.cons ?_ .nil))
      · rw [List.drop_left]
        simpa [Nat.add_assoc] using body
      · simpa using rest
      · simpa using line
  · exact .nil

/-- The cuts at the blocks of a library, from each line outside comments up to the closing brace. -/
def members (library : Text) : Cutting where
  text := library
  ranges := (library.lineOffsets.zip (Mining.linesOf library)).flatMap fun (start, line) =>
    if line.hidden then [] else (library.blockEnd? start).toList.map fun stop => (start, stop)
  parts := (Mining.linesOf library).flatMap fun line =>
    if line.hidden then [] else line.tail.cutBlock?.toList.map fun cut => cut.1

/-- The lines of a library that start outside comments start between its pieces. -/
theorem exists_pieces_of_not_hidden {library : Text} {i start : Nat} {line : Mining.Line}
    (offset : library.lineOffsets[i]? = some start)
    (listed : (Mining.linesOf library)[i]? = some line) (outside : line.hidden = false) :
    ∃ front back, library.pieces = front ++ back ∧ start = size (spell front) ∧
      line.tail = spell back := by
  obtain ⟨-, -, flag, tail⟩ := Mining.getElem?_linesOf.mp listed
  rw [outside] at flag
  obtain ⟨front, back, split, spelled⟩ : ∃ front back, library.pieces = front ++ back ∧
      line.tail = spell back := by
    cases i with
    | zero =>
      refine ⟨[], library.pieces, rfl, ?_⟩
      rw [spell_pieces]
      exact (Option.some_inj.mp tail).symm
    | succ i =>
      obtain ⟨back, ⟨front, split⟩, here, -⟩ := Mining.exists_tail flag
      rw [spell_pieces] at here
      exact ⟨front, back, split.symm, Option.some_inj.mp (tail.symm.trans here)⟩
  have paired : (start, line.tail) ∈ library.lineOffsets.zip library.lineTails :=
    List.mem_iff_getElem?.mpr ⟨i, List.getElem?_zip_eq_some.mpr ⟨offset, tail⟩⟩
  obtain ⟨before, whole, rfl, -⟩ := (List.forall₂_iff_zip.mp (forall₂_lineTails library)).2 paired
  have joined : spell front ++ spell back = before ++ spell back := by
    rw [← spell_append, ← split, spell_pieces, ← spelled]
    exact whole
  exact ⟨front, back, split, by rw [List.append_cancel_right joined], spelled⟩

/-- A library has no more lines than places where a line starts. -/
theorem length_linesOf_le (library : Text) :
    (Mining.linesOf library).length ≤ library.lineOffsets.length := by
  rw [(forall₂_lineTails library).length_eq, Mining.linesOf, List.length_map, List.length_zip]
  exact Nat.min_le_right _ _

private theorem sound_members (library : Text) : (members library).Sound := by
  have paired : List.Forall₂
      (fun place line => place ∈ library.lineOffsets.zip (Mining.linesOf library) ∧ place.2 = line)
      (library.lineOffsets.zip (Mining.linesOf library))
      ((library.lineOffsets.zip (Mining.linesOf library)).map Prod.snd) :=
    List.forall₂_map_right_iff.mpr (List.forall₂_same.mpr fun _ member => ⟨member, rfl⟩)
  rw [List.map_snd_zip (length_linesOf_le library)] at paired
  refine List.rel_flatMap paired ?_
  rintro ⟨start, line⟩ _ ⟨member, rfl⟩
  cases outside : line.hidden with
  | true =>
    simp only [outside, if_true]
    exact .nil
  | false =>
    obtain ⟨i, found⟩ := List.mem_iff_getElem?.mp member
    obtain ⟨offset, listed⟩ := List.getElem?_zip_eq_some.mp found
    obtain ⟨front, back, split, rfl, spelled⟩ := exists_pieces_of_not_hidden offset listed outside
    have whole : library = spell front ++ spell back := by
      rw [← spell_append, ← split, spell_pieces]
    simp only [outside, Bool.false_eq_true, if_false]
    rw [blockEnd?_eq split, show line.tail = spell back from spelled]
    cases cut : (spell back).cutBlock? with
    | none => exact .nil
    | some parts =>
      refine .cons ?_ .nil
      rw [eq_append_of_cutBlock? cut] at whole
      have block := slicesTo_append (spell front) parts.1 parts.2
      rwa [← whole] at block

/-! ### Structs -/

/-- The cuts at the first struct: in front of its keyword, from the keyword on, from its name on, at
its name, between its braces and behind them. -/
def record (t : Text) : Cutting where
  text := t
  ranges := match Record.keywordAt? t with
    | none => []
    | some keyword =>
      let start := t.skipGaps (keyword + size Keyword.record)
      let stop := start + ((t.bytes.drop start).takeWhile (byteIn isIdentChar)).length
      let opening := t.skipGaps stop
      [(0, keyword), (keyword, t.size), (start, t.size), (start, stop)] ++
        if start = stop ∨ t.bytes[opening]? ≠ some '{'.toUInt8 then []
        else match t.matchingBracket? opening '{' '}' with
          | none => []
          | some close => [(opening + 1, close), (close + 1, t.size)]
  parts := match Record.findKeyword? true t.pieces with
    | none => []
    | some (before, afterKeyword) =>
      let afterGap := (takeCode isGap afterKeyword).2
      let (name, afterName) := takeCode isIdentChar afterGap
      [before, Keyword.record ++ spell afterKeyword, spell afterGap, name] ++
        if name = [] then []
        else match (takeCode isGap afterName).2 with
          | .code '{' :: afterBrace =>
            match splitAtClose? '{' '}' 0 afterBrace with
            | none => []
            | some (inside, after) => [spell inside, spell after]
          | _ => []

/-- The cuts at the braces behind a name. -/
theorem forall₂_braces {t : Text} {front ps : List Piece} (split : t.pieces = front ++ ps)
    {stop : Nat} (place : stop = size (spell front)) :
    List.Forall₂ t.SlicesTo
      (if t.bytes[t.skipGaps stop]? ≠ some '{'.toUInt8 then []
        else match t.matchingBracket? (t.skipGaps stop) '{' '}' with
          | none => []
          | some close => [(t.skipGaps stop + 1, close), (close + 1, t.size)])
      (match (takeCode isGap ps).2 with
        | .code '{' :: afterBrace =>
          match splitAtClose? '{' '}' 0 afterBrace with
          | none => []
          | some (inside, after) => [spell inside, spell after]
        | _ => []) := by
  subst place
  have one : '{'.utf8Size = 1 := rfl
  have one' : '}'.utf8Size = 1 := rfl
  have scanned := scanned_pieces t
  rw [split] at scanned
  have formed := (scanned.part (List.suffix_append front ps).isInfix).wellFormed
  have whole : t = spell front ++ spell ps := by rw [← spell_append, ← split, spell_pieces]
  have opening := skipGaps_spell (spell front) formed
  have sign := getElem?_skipGaps_iff (spell front) formed one rfl (by decide)
  have taken := (eq_takeCode isGap ps).1
  rw [← whole] at opening sign
  generalize takeCode isGap ps = first at *
  obtain ⟨gap, rest⟩ := first
  by_cases brace : ∃ afterBrace, rest = .code '{' :: afterBrace
  · rw [if_neg (not_not.mpr (sign.mpr brace)), opening]
    obtain ⟨afterBrace, rfl⟩ := brace
    have split' : t.pieces = (front ++ gap.map .code) ++ .code '{' :: afterBrace := by
      rw [split, taken, List.append_assoc]
    have bracket := matchingBracket?_eq split' '}'
    rw [spell_append, size_append, spell_map_code] at bracket
    simp only [bracket]
    cases closes : splitAtClose? '{' '}' 0 afterBrace with
    | none => exact .nil
    | some parts =>
      obtain ⟨inside, after⟩ := parts
      have text : t = (spell front ++ gap ++ ['{']) ++ (spell inside ++ '}' :: spell after) := by
        rw [← spell_pieces t, split', (eq_of_splitAtClose? closes).1]
        simp [Piece.text]
      have body := slicesTo_append (spell front ++ gap ++ ['{']) (spell inside) ('}' :: spell after)
      have behind := slicesTo_right (spell front ++ gap ++ ['{'] ++ (spell inside ++ ['}']))
        (spell after)
      have text' : spell front ++ gap ++ ['{'] ++ (spell inside ++ ['}']) ++ spell after = t := by
        rw [text]
        simp
      rw [← text] at body
      rw [text'] at behind
      refine .cons ?_ (.cons ?_ .nil)
      · simpa [one, Nat.add_assoc] using body
      · simpa [one, one', Nat.add_assoc] using behind
  · rw [if_pos fun found => brace (sign.mp found)]
    split
    · next afterBrace equal => exact absurd ⟨afterBrace, equal⟩ brace
    · exact .nil

private theorem sound_record (t : Text) : (record t).Sound := by
  rw [Sound, record]
  simp only
  rw [Record.keywordAt?_eq]
  cases found : Record.findKeyword? true t.pieces with
  | none => exact .nil
  | some parts =>
    obtain ⟨before, afterKeyword⟩ := parts
    obtain ⟨front, rfl, split, -⟩ := Record.exists_of_findKeyword? found
    have scanned := scanned_pieces t
    rw [split, ← List.append_assoc] at scanned
    have formed := (scanned.part (List.suffix_append _ afterKeyword).isInfix).wellFormed
    have whole : t = (spell front ++ Keyword.record) ++ spell afterKeyword := by
      rw [← spell_pieces t, split]
      simp
    have start := skipGaps_spell (spell front ++ Keyword.record) formed
    have gaps := (eq_takeCode isGap afterKeyword).1
    rw [← whole, size_append] at start
    simp only [Option.map_some, start]
    generalize takeCode isGap afterKeyword = first at *
    obtain ⟨gap, afterGap⟩ := first
    have formed' : ∀ p ∈ afterGap, p.WellFormed := by
      intro p member
      refine formed p ?_
      rw [gaps]
      exact List.mem_append_right _ member
    have whole' : t = (spell front ++ Keyword.record ++ gap) ++ spell afterGap := by
      rw [whole, gaps]
      simp
    have length := length_takeWhile_drop_bytes (spell front ++ Keyword.record ++ gap) formed'
    have names := (eq_takeCode isIdentChar afterGap).1
    rw [← whole', size_append, size_append] at length
    simp only [length]
    generalize takeCode isIdentChar afterGap = second at *
    obtain ⟨name, afterName⟩ := second
    refine List.rel_append (.cons ?_ (.cons ?_ (.cons ?_ (.cons ?_ .nil)))) ?_
    · rw [whole, List.append_assoc]
      exact slicesTo_left (spell front) _
    · rw [whole, List.append_assoc]
      exact slicesTo_right (spell front) _
    · have cut := slicesTo_right (spell front ++ Keyword.record ++ gap) (spell afterGap)
      rw [← whole'] at cut
      simpa [Nat.add_assoc] using cut
    · have cut := slicesTo_append (spell front ++ Keyword.record ++ gap) name (spell afterName)
      have text : spell front ++ Keyword.record ++ gap ++ (name ++ spell afterName) = t := by
        rw [whole', names]
        simp
      rw [text] at cut
      simpa [Nat.add_assoc] using cut
    · by_cases empty : name = []
      · rw [if_pos (.inl (by rw [empty]; rfl)), if_pos empty]
        exact .nil
      · have named := ne_zero_size empty
        have split' : t.pieces =
            (front ++ ((Keyword.record ++ gap ++ name).map .code)) ++ afterName := by
          rw [split, gaps, names]
          simp
        have place : size (spell front) + size Keyword.record + size gap + size name =
            size (spell (front ++ (Keyword.record ++ gap ++ name).map .code)) := by
          rw [spell_append, spell_map_code]
          simp [Nat.add_assoc]
        have braces := forall₂_braces split' place
        rw [if_neg empty]
        simpa [named] using braces

/-! ### All cuts -/

/-- The places where passes cut texts. -/
inductive Site where
  | comments
  | names
  | beforeNames
  | operands
  | lastName
  | header
  | imported
  | call
  | lines
  | tails
  | bodies
  | lineAt (position : Nat)
  | functions
  | members
  | record
  deriving DecidableEq, Repr

/-- The cuts that are made for a text at a site. -/
def Site.cutting : Site → Text → Cutting
  | .comments => Cutting.comments
  | .names => Cutting.names
  | .beforeNames => Cutting.beforeNames
  | .operands => Cutting.operands
  | .lastName => Cutting.lastName
  | .header => Cutting.header
  | .imported => Cutting.imported
  | .call => Cutting.call
  | .lines => Cutting.lines
  | .tails => Cutting.tails
  | .bodies => Cutting.bodies
  | .lineAt position => Cutting.lineAt position
  | .functions => Cutting.functions
  | .members => Cutting.members
  | .record => Cutting.record

/-- Whatever the text, all ranges at which a pass cuts are in bounds and between characters, and
hold the parts that the pass goes on with. -/
theorem Site.sound_cutting (site : Site) (t : Text) : (site.cutting t).Sound := by
  cases site with
  | comments => exact sound_comments t
  | names => exact sound_names t
  | beforeNames => exact sound_beforeNames t
  | operands => exact sound_operands t
  | lastName => exact sound_lastName t
  | header => exact sound_header t
  | imported => exact sound_imported t
  | call => exact sound_call t
  | lines => exact sound_lines t
  | tails => exact sound_tails t
  | bodies => exact sound_bodies t
  | lineAt position => exact sound_lineAt position t
  | functions => exact sound_functions t
  | members => exact sound_members t
  | record => exact sound_record t

example : (Site.call.cutting "é(\"%s\" % (ü, 1))").ranges =
    [(0, 7), (11, 13), (14, 16), (17, 18)] := by
  decide +kernel

end Cutting

end ScriptLoom
