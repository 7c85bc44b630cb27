import ScriptLoom.Proofs.Lines
import ScriptLoom.Script

/-! # Taking a script apart

The lines of a script are taken off its front, one item at a time (`Script.Takes`). The items of a
script are those of all the steps (`Script.itemsOfLines_eq_ok_iff`), and taking a script apart
fails exactly where a function is begun that no block follows
(`Script.itemsOfLines_eq_error_iff`). Where the braces are balanced from some depth on, a block
follows as soon as there is an opening brace (`Text.cutBlock?_eq_none_iff`).
-/

namespace ScriptLoom

/-- A computation in two parts succeeds only if both do. -/
theorem exists_of_bind_eq_ok {ε α β : Type} {first : Except ε α} {next : α → Except ε β} {b : β}
    (bound : first >>= next = .ok b) : ∃ a, first = .ok a ∧ next a = .ok b := by
  cases first with
  | error e => cases bound
  | ok a => exact ⟨a, rfl, bound⟩

namespace Text

/-! ### The first block of a text -/

/-- A block that is cut off goes through the brace that closes its first opening brace. -/
theorem exists_of_cutBlock? {t block after : Text} (cut : t.cutBlock? = some (block, after)) :
    ∃ header inside rest, t.pieces = header ++ .code '{' :: (inside ++ .code '}' :: rest) ∧
      .code '{' ∉ header ∧ nesting '{' '}' 0 (codeOf inside) = some 0 ∧
      block = spell (header ++ .code '{' :: (inside ++ [.code '}'])) ∧ after = spell rest := by
  simp only [cutBlock?, Option.bind_eq_bind, Option.bind_eq_some_iff] at cut
  obtain ⟨⟨header, opened⟩, opens, ⟨inside, rest⟩, closes, result⟩ := cut
  obtain ⟨whole, first⟩ := eq_of_splitAtCode? opens
  obtain ⟨split, balanced⟩ : opened = _ ∧ _ := eq_of_splitAtClose? closes
  cases result
  refine ⟨header, inside, rest, ?_, first, balanced, ?_, rfl⟩
  · rw [whole, split]
  · simp [Piece.text]

/-- A text whose braces lead back to depth zero has a block unless it has no opening brace. -/
theorem cutBlock?_eq_none_iff {t : Text} {depth : Nat}
    (reached : nesting '{' '}' depth (codeOf t.pieces) = some 0) :
    t.cutBlock? = none ↔ '{' ∉ codeOf t.pieces := by
  rw [mem_codeOf, ← splitAtCode?_eq_none_iff]
  cases opens : splitAtCode? '{' t.pieces with
  | none => simp [cutBlock?, opens]
  | some parts =>
    obtain ⟨header, opened⟩ := parts
    have whole := (eq_of_splitAtCode? opens).1
    rw [whole, codeOf_append, codeOf_cons_code] at reached
    obtain ⟨middle, -, rest⟩ := nesting_append_eq_some.mp reached
    rw [nesting_cons_opening] at rest
    obtain ⟨inside, after, closes⟩ := exists_splitAtClose? (by decide) rest
    simp [cutBlock?, opens, closes]

end Text

namespace Script

/-! ### One step -/

/-- The statement behind a function on the line of its closing brace. -/
def trailingItems (after : Text) : List Item :=
  let trailing := Text.trim (after.takeWhile (· ≠ '\n'))
  if trailing = [] then [] else [.statement trailing]

/-- One step of taking lines of code apart: the items taken off the front, and the lines left. -/
inductive Takes : List (Nat × Text) → List Item → List (Nat × Text) → Prop
  | importLine {n : Nat} {line : Text} {rest : List (Nat × Text)}
      (starts : line.startsWith Keyword.imports = true) :
      Takes ((n, line) :: rest) [.importLine line] rest
  | globalLine {n : Nat} {line : Text} {rest : List (Nat × Text)}
      (starts : line.startsWith Keyword.global = true) :
      Takes ((n, line) :: rest) [.globalLine line] rest
  | function {n : Nat} {line block after : Text} {rest : List (Nat × Text)}
      (starts : line.startsWith Keyword.function = true)
      (cut : (Text.unlines (line :: rest.map (·.2))).cutBlock? = some (block, after)) :
      Takes ((n, line) :: rest)
        (.function (block.drop Keyword.function.length) :: trailingItems after)
        (rest.drop (block.count '\n'))
  | statement {n : Nat} {line : Text} {rest : List (Nat × Text)}
      (noImport : line.startsWith Keyword.imports = false)
      (noGlobal : line.startsWith Keyword.global = false)
      (noFunction : line.startsWith Keyword.function = false) :
      Takes ((n, line) :: rest) [.statement line] rest

/-- Lines start as their first line does. -/
theorem startsWith_unlines {line keyword : Text} (starts : line.startsWith keyword = true)
    (ls : List Text) : (Text.unlines (line :: ls)).startsWith keyword = true :=
  List.isPrefixOf_iff_prefix.mpr
    ((List.isPrefixOf_iff_prefix.mp starts).trans (Text.prefix_unlines line ls))

/-- The first block of a text that starts with the keyword of functions is the keyword and the
function behind it, from its header through the brace that closes its block. -/
theorem exists_of_function_cutBlock? {t block after : Text}
    (starts : t.startsWith Keyword.function = true) (cut : t.cutBlock? = some (block, after)) :
    ∃ (text : Text) (header inside : List Piece), block = Keyword.function ++ text ∧
      t = block ++ after ∧
      t.pieces = Keyword.function.map .code ++ (text.pieces ++ after.pieces) ∧
      text.pieces = header ++ .code '{' :: (inside ++ [.code '}']) ∧
      .code '{' ∉ header ∧ nesting '{' '}' 0 (codeOf inside) = some 0 := by
  obtain ⟨header, inside, rest, whole, first, balanced, rfl, rfl⟩ := Text.exists_of_cutBlock? cut
  obtain ⟨tail, rfl⟩ := List.isPrefixOf_iff_prefix.mp starts
  have keyword := Text.pieces_plain_append (s := Keyword.function) (by decide) tail
  -- The keyword has no brace, so it stands before the first one.
  obtain ⟨header, rfl⟩ : ∃ header', header = Keyword.function.map .code ++ header' := by
    rcases List.append_eq_append_iff.mp (whole.symm.trans keyword) with
      ⟨between, split, rest⟩ | ⟨between, split, -⟩
    · cases between with
      | nil => exact ⟨[], by rw [List.append_nil, split, List.append_nil]⟩
      | cons p between =>
        obtain rfl : .code '{' = p := by simpa using congrArg List.head? rest
        have member : Piece.code '{' ∈ Keyword.function.map .code := by
          rw [split]
          simp
        exact absurd member (by decide)
    · exact ⟨between, split⟩
  have parts : Text.pieces (Keyword.function ++ tail) = Keyword.function.map .code ++
      ((header ++ .code '{' :: (inside ++ [.code '}'])) ++ rest) := by
    rw [whole]
    simp
  have body : Text.pieces (spell (header ++ .code '{' :: (inside ++ [.code '}']))) = _ :=
    Text.pieces_spell_part (t := Keyword.function ++ tail)
      ⟨Keyword.function.map .code, rest, by rw [parts, List.append_assoc]⟩
  have behind : Text.pieces (spell rest) = rest :=
    Text.pieces_spell_part (t := Keyword.function ++ tail)
      ⟨Keyword.function.map .code ++ (header ++ .code '{' :: (inside ++ [.code '}'])), [],
        by rw [parts]; simp⟩
  refine ⟨spell (header ++ .code '{' :: (inside ++ [.code '}'])), header, inside, ?_, ?_, ?_, body,
    fun member => first (List.mem_append_right _ member), balanced⟩
  · rw [List.append_assoc, spell_append, spell_map_code]
  · have spelled := congrArg spell whole
    rw [Text.spell_pieces] at spelled
    rw [spelled]
    simp [Piece.text]
  · rw [body, behind, parts]

/-- The lines behind a block are those that follow the line on which it ends. -/
theorem tail_splitOn_of_unlines {line block after : Text} {ls : List Text}
    (inLine : ∀ l ∈ line :: ls, '\n' ∉ l) (whole : Text.unlines (line :: ls) = block ++ after) :
    (after.splitOn '\n').tail = ls.drop (block.count '\n') := by
  have lines : (Text.unlines (line :: ls)).splitOn '\n' = line :: ls :=
    List.splitOn_intercalate '\n' inLine (by simp)
  rw [← Text.drop_splitOn_append block, ← whole, lines, List.drop_succ_cons]

/-- The lines that are left after some steps. -/
inductive Reaches (lines : List (Nat × Text)) : List (Nat × Text) → Prop
  | start : Reaches lines lines
  | step {left rest : List (Nat × Text)} {items : List Item} (reached : Reaches lines left)
      (takes : Takes left items rest) : Reaches lines rest

variable {lines rest : List (Nat × Text)} {items : List Item}

/-- A line starts with one keyword only. -/
theorem startsWith_eq_false {line keyword other : Text} (starts : line.startsWith keyword = true)
    (differ : keyword.head?.isSome ∧ other.head?.isSome ∧ keyword.head? ≠ other.head?) :
    line.startsWith other = false := by
  obtain ⟨tail, rfl⟩ := List.isPrefixOf_iff_prefix.mp starts
  cases keyword with
  | nil => simp at differ
  | cons c keyword =>
    cases other with
    | nil => simp at differ
    | cons d other =>
      have unequal : d ≠ c := fun same => differ.2.2 (by rw [same]; rfl)
      simp [Text.startsWith, List.isPrefixOf, unequal]

private theorem noKeyword_of_function {line : Text}
    (starts : line.startsWith Keyword.function = true) :
    line.startsWith Keyword.imports = false ∧ line.startsWith Keyword.global = false :=
  ⟨startsWith_eq_false starts (by decide), startsWith_eq_false starts (by decide)⟩

/-- A step uses up lines. -/
theorem Takes.length_lt (takes : Takes lines items rest) : rest.length < lines.length := by
  cases takes <;> grind

/-- A step takes lines off the front. -/
theorem Takes.isSuffix (takes : Takes lines items rest) : rest <:+ lines := by
  cases takes with
  | function => exact (List.drop_suffix _ _).trans (List.suffix_cons _ _)
  | _ => exact List.suffix_cons _ _

/-- The items of lines are those of the first step and those of the lines left. -/
theorem Takes.itemsOfLines_eq (takes : Takes lines items rest) :
    itemsOfLines lines = (itemsOfLines rest).map (items ++ ·) := by
  have bind_eq : ∀ (result : Except Diagnostic (List Item)) (items : List Item),
      (do return items ++ (← result) : Except Diagnostic (List Item)) =
        result.map (items ++ ·) := by
    rintro (problem | further) items <;> rfl
  cases takes with
  | importLine starts =>
    rw [itemsOfLines, if_pos starts]
    exact bind_eq _ [_]
  | @globalLine n line rest starts =>
    have noImport : line.startsWith Keyword.imports = false :=
      startsWith_eq_false starts (by decide)
    rw [itemsOfLines, if_neg (by simp [noImport]), if_pos starts]
    exact bind_eq _ [_]
  | @function n line block after rest starts cut =>
    obtain ⟨noImport, noGlobal⟩ := noKeyword_of_function starts
    rw [itemsOfLines, if_neg (by simp [noImport]), if_neg (by simp [noGlobal]), if_pos starts, cut]
    exact bind_eq _ (_ :: trailingItems _)
  | statement noImport noGlobal noFunction =>
    rw [itemsOfLines, if_neg (by simp [noImport]), if_neg (by simp [noGlobal]),
      if_neg (by simp [noFunction])]
    exact bind_eq _ [_]

/-- A function that no block follows is reported on its line. -/
theorem itemsOfLines_of_cutBlock?_eq_none {n : Nat} {line : Text}
    (starts : line.startsWith Keyword.function = true)
    (uncut : (Text.unlines (line :: rest.map (·.2))).cutBlock? = none) :
    itemsOfLines ((n, line) :: rest) = .error (Problem.openBrace.onLine n) := by
  obtain ⟨noImport, noGlobal⟩ := noKeyword_of_function starts
  rw [itemsOfLines, if_neg (by simp [noImport]), if_neg (by simp [noGlobal]), if_pos starts, uncut]

/-- There is a step unless a function is begun that no block follows. -/
theorem exists_takes_or (n : Nat) (line : Text) (rest : List (Nat × Text)) :
    (∃ items left, Takes ((n, line) :: rest) items left) ∨
      line.startsWith Keyword.function = true ∧
        (Text.unlines (line :: rest.map (·.2))).cutBlock? = none := by
  by_cases isImport : line.startsWith Keyword.imports = true
  · exact .inl ⟨_, _, .importLine isImport⟩
  by_cases isGlobal : line.startsWith Keyword.global = true
  · exact .inl ⟨_, _, .globalLine isGlobal⟩
  by_cases isFunction : line.startsWith Keyword.function = true
  · cases cut : (Text.unlines (line :: rest.map (·.2))).cutBlock? with
    | none => exact .inr ⟨isFunction, rfl⟩
    | some parts => exact .inl ⟨_, _, .function isFunction cut⟩
  · exact .inl ⟨_, _, .statement (by simpa using isImport) (by simpa using isGlobal)
      (by simpa using isFunction)⟩

/-! ### All steps -/

/-- Lines taken apart to the end. -/
inductive Taken : List (Nat × Text) → List Item → Prop
  | nil : Taken [] []
  | step {lines rest : List (Nat × Text)} {items further : List Item}
      (takes : Takes lines items rest) (later : Taken rest further) : Taken lines (items ++ further)

/-- Lines are taken apart into the items that the steps take off. -/
theorem itemsOfLines_eq_ok_iff : itemsOfLines lines = .ok items ↔ Taken lines items := by
  constructor
  · induction size : lines.length using Nat.strong_induction_on generalizing lines items with
    | _ size ih =>
      intro read
      match lines with
      | [] =>
        rw [itemsOfLines] at read
        cases read
        exact .nil
      | (n, line) :: rest =>
        rcases exists_takes_or n line rest with ⟨first, left, takes⟩ | ⟨starts, uncut⟩
        · rw [takes.itemsOfLines_eq] at read
          cases further : itemsOfLines left with
          | error problem =>
            rw [further] at read
            cases read
          | ok later =>
            rw [further] at read
            cases read
            exact .step takes (ih _ (size ▸ takes.length_lt) rfl further)
        · rw [itemsOfLines_of_cutBlock?_eq_none starts uncut] at read
          cases read
  · intro taken
    induction taken with
    | nil => rw [itemsOfLines]
    | step takes later ih =>
      rw [takes.itemsOfLines_eq, ih]
      rfl

/-- Steps can be followed by steps. -/
theorem Reaches.trans {middle : List (Nat × Text)} (first : Reaches lines middle)
    (second : Reaches middle rest) : Reaches lines rest := by
  induction second with
  | start => exact first
  | step reached takes ih => exact .step ih takes

/-- Steps leave lines from the end. -/
theorem Reaches.isSuffix (reached : Reaches lines rest) : rest <:+ lines := by
  induction reached with
  | start => exact List.suffix_rfl
  | step reached takes ih => exact takes.isSuffix.trans ih

private theorem Reaches.itemsOfLines_eq_error {problem : Diagnostic} (reached : Reaches lines rest)
    (failed : itemsOfLines rest = .error problem) : itemsOfLines lines = .error problem := by
  induction reached with
  | start => exact failed
  | step reached takes ih =>
    apply ih
    rw [takes.itemsOfLines_eq, failed]
    rfl

/-- Taking lines apart fails exactly at a function that is begun and that no block follows. -/
theorem itemsOfLines_eq_error_iff {problem : Diagnostic} :
    itemsOfLines lines = .error problem ↔
      ∃ n line rest, Reaches lines ((n, line) :: rest) ∧
        line.startsWith Keyword.function = true ∧
        (Text.unlines (line :: rest.map (·.2))).cutBlock? = none ∧
        problem = Problem.openBrace.onLine n := by
  constructor
  · induction size : lines.length using Nat.strong_induction_on generalizing lines with
    | _ size ih =>
      intro failed
      match lines with
      | [] =>
        rw [itemsOfLines] at failed
        cases failed
      | (n, line) :: rest =>
        rcases exists_takes_or n line rest with ⟨first, left, takes⟩ | ⟨starts, uncut⟩
        · have later : itemsOfLines left = .error problem := by
            rw [takes.itemsOfLines_eq] at failed
            cases further : itemsOfLines left with
            | error problem' =>
              rw [further] at failed
              cases failed
              rfl
            | ok later =>
              rw [further] at failed
              cases failed
          obtain ⟨n', line', rest', reached, found⟩ := ih _ (size ▸ takes.length_lt) rfl later
          exact ⟨n', line', rest', .trans (.step .start takes) reached, found⟩
        · rw [itemsOfLines_of_cutBlock?_eq_none starts uncut] at failed
          cases failed
          exact ⟨n, line, rest, .start, starts, uncut, rfl⟩
  · rintro ⟨n, line, rest, reached, starts, uncut, rfl⟩
    exact reached.itemsOfLines_eq_error (itemsOfLines_of_cutBlock?_eq_none starts uncut)

/-- The scripts that a text is taken apart into. -/
theorem exists_of_ofText {text : Text} {catalog : Catalog} {script : Script}
    (taken : ofText text catalog = .ok script) :
    ∃ items, Taken (codeLines text) items ∧ script = ofItems catalog items := by
  obtain ⟨items, read, result⟩ := exists_of_bind_eq_ok taken
  cases result
  exact ⟨items, itemsOfLines_eq_ok_iff.mp read, rfl⟩

/-! ### The lines of code -/

/-- The lines of code are the lines without comments and blanks around them that are not empty. -/
theorem map_snd_codeLines (text : Text) :
    (codeLines text).map (·.2) = (text.withoutComments.lines.map Text.trim).filter (· ≠ []) := by
  have numbers : ∀ (ls : List Text) (n : Nat),
      ((ls.zipIdx n).map fun x => x.1.trim) = ls.map Text.trim := by
    intro ls
    induction ls with
    | nil => exact fun n => rfl
    | cons line ls ih =>
      intro n
      rw [List.zipIdx_cons, List.map_cons, ih, List.map_cons]
  have lines := numbers text.withoutComments.lines 0
  rw [← lines, List.filter_map]
  simp only [codeLines, Text.numberedLines, List.map_map, List.filter_map]
  rfl

/-- The lines of code are the lines without comments, trimmed, where something is left. -/
theorem forall_mem_codeLines_iff {property : Text → Prop} (empty : property []) (text : Text) :
    (∀ line ∈ (codeLines text).map (·.2), property line) ↔
      ∀ part ∈ text.withoutComments.splitOn '\n', property (Text.trim part) := by
  have lines := Text.forall_mem_lines (fun line => property line.trim) empty
    (fun line => by rw [Text.trim_dropReturn]) text.withoutComments
  rw [← lines, map_snd_codeLines]
  constructor
  · intro holds line member
    by_cases blank : line.trim = []
    · rwa [blank]
    · apply holds
      exact List.mem_filter.mpr ⟨List.mem_map.mpr ⟨line, member, rfl⟩, by simpa using blank⟩
  · intro holds line member
    obtain ⟨raw, inLines, rfl⟩ := List.mem_map.mp (List.mem_of_mem_filter member)
    exact holds raw inLines

/-- What every line of code is. -/
structure TrimmedLine (line : Text) : Prop where
  free : line.CommentFree
  inLine : '\n' ∉ line
  trimmed : line.trim = line
  nonempty : line ≠ []

/-- A line of code ends with a visible character. -/
theorem TrimmedLine.exists_getLast? {line : Text} (code : TrimmedLine line) :
    ∃ c, line.getLast? = some c ∧ Text.isBlank c = false := by
  cases last : line.getLast? with
  | none => exact absurd (List.getLast?_eq_none_iff.mp last) code.nonempty
  | some c =>
    rw [← code.trimmed] at last
    exact ⟨c, rfl, Text.isBlank_getLast?_trim last⟩

/-- The end of a line of code is blanks and its trimmed text. -/
theorem TrimmedLine.exists_eq_blanks_append_trim {s t : Text} (code : TrimmedLine (s ++ t)) :
    ∃ blanks : Text, t = blanks ++ t.trim ∧ ∀ c ∈ blanks, Text.isBlank c = true := by
  by_cases empty : t = []
  · subst empty
    exact ⟨[], rfl, nofun⟩
  · obtain ⟨c, last, visible⟩ := code.exists_getLast?
    rw [List.getLast?_append_of_ne_nil _ empty] at last
    exact Text.exists_eq_blanks_append_trim last visible

/-- The lines of code of a script are trimmed lines. -/
theorem trimmedLine_of_mem_codeLines {text line : Text}
    (member : line ∈ (codeLines text).map (·.2)) : TrimmedLine line := by
  rw [map_snd_codeLines] at member
  obtain ⟨kept, visible⟩ := List.mem_filter.mp member
  obtain ⟨raw, inLines, rfl⟩ := List.mem_map.mp kept
  refine ⟨?_, ?_, Text.trim_trim raw, by simpa using visible⟩
  · exact Text.commentFree_trim.mpr ((Text.commentFree_withoutComments text).of_mem_lines inLines)
  · have inLine := Text.forall_mem_lines (fun line => '\n' ∉ line.trim) (by decide)
      (fun line => by rw [Text.trim_dropReturn]) text.withoutComments
    apply inLine.mpr _ raw inLines
    intro part member inTrimmed
    exact not_mem_of_mem_splitOn member ((Text.trim_isInfix part).subset inTrimmed)

/-- The lines of code hold all code characters of a text but blanks. -/
theorem flatMap_codeIn_codeLines {keep : Char → Bool}
    (blind : ∀ c, Text.isBlank c = true → keep c = false) (text : Text) :
    ((codeLines text).map (·.2)).flatMap (Text.codeIn keep) = text.codeIn keep := by
  have nonempty : ∀ ls : List Text, (ls.filter (· ≠ [])).flatMap (Text.codeIn keep) =
      ls.flatMap (Text.codeIn keep) := by
    intro ls
    induction ls with
    | nil => rfl
    | cons line ls ih =>
      by_cases empty : line = []
      · subst empty
        simpa [Text.codeIn, Text.pieces] using ih
      · simpa [empty] using ih
  calc ((codeLines text).map (·.2)).flatMap (Text.codeIn keep)
      = text.withoutComments.lines.flatMap (Text.codeIn keep) := by
        rw [map_snd_codeLines, nonempty, List.flatMap_map]
        simp only [Text.codeIn_trim blind]
    _ = text.withoutComments.codeIn keep :=
        Text.flatMap_codeIn_lines blind (Text.commentFree_withoutComments text)
    _ = text.codeIn keep := by
        rw [Text.codeIn, Text.pieces_withoutComments]
        exact filter_lineCode (blind _ (by decide)) _

end Script

end ScriptLoom
