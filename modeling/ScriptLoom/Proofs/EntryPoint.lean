import ScriptLoom.Proofs.BraceBalance
import ScriptLoom.Proofs.ItemLines
import ScriptLoom.Proofs.Places

/-! # The entry point of a script of statements

A script that has neither format calls nor lines that start with a keyword consists of statements.
No struct is taken out of it (`Record.findKeyword?_unlines`), and the lines of its code stand one
after the other in the entry point of the program, two tabs deep (`Program.exists_laidOut`).
-/

namespace ScriptLoom

/-! ### No struct -/

namespace Record

/-- On the rest of a line there is no struct. -/
theorem findKeyword?_false_append {ps tail : List Piece} (inLine : .code '\n' ∉ ps)
    (quiet : findKeyword? false tail = none) : findKeyword? false (ps ++ tail) = none := by
  induction ps with
  | nil => exact quiet
  | cons p ps ih =>
    have rest := ih fun later => inLine (List.mem_cons_of_mem _ later)
    cases p with
    | region kind body closed =>
      rw [List.cons_append, findKeyword?, rest]
      rfl
    | code c =>
      have other : c ≠ '\n' := by
        rintro rfl
        exact inLine List.mem_cons_self
      rw [List.cons_append, findKeyword?]
      simp [other, rest]

private theorem findKeyword?_lineFeed (atStart : Bool) {tail : List Piece}
    (quiet : findKeyword? true tail = none) :
    findKeyword? atStart (.code '\n' :: tail) = none := by
  have blank : Text.isBlank '\n' = true := by decide
  rw [findKeyword?]
  simp [blank, quiet]

/-- A word does not go over the end of a line. -/
theorem startsWith_of_dropWord? {word : Text} {ps tail after : List Piece} (inLine : '\n' ∉ word)
    (ends : ∀ p ∈ tail.head?, p = .code '\n')
    (dropped : dropWord? word (ps ++ tail) = some after) :
    (spell ps).startsWith word = true := by
  induction word generalizing ps with
  | nil => rfl
  | cons c word ih =>
    have inLine' : '\n' ∉ word := fun later => inLine (List.mem_cons_of_mem _ later)
    cases ps with
    | nil =>
      cases tail with
      | nil => cases dropped
      | cons p tail =>
        obtain rfl := ends p rfl
        rw [List.nil_append, dropWord?] at dropped
        split at dropped
        · next same =>
          cases same
          exact absurd List.mem_cons_self inLine
        · cases dropped
    | cons p ps =>
      rw [List.cons_append, dropWord?] at dropped
      split at dropped
      · next same =>
        subst same
        have rest := ih inLine' dropped
        simpa [Text.startsWith, Piece.text] using rest
      · cases dropped

/-- A line that does not start with the keyword declares no struct. -/
theorem findKeyword?_true_append {ps tail : List Piece} (inLine : .code '\n' ∉ ps)
    (other : (spell ps).trimStart.startsWith Keyword.record = false)
    (ends : ∀ p ∈ tail.head?, p = .code '\n') (quiet : ∀ b, findKeyword? b tail = none) :
    findKeyword? true (ps ++ tail) = none := by
  induction ps with
  | nil => exact quiet true
  | cons p ps ih =>
    have inLine' : .code '\n' ∉ ps := fun later => inLine (List.mem_cons_of_mem _ later)
    have rest := findKeyword?_false_append inLine' (quiet false)
    cases p with
    | region kind body closed =>
      rw [List.cons_append, findKeyword?, rest]
      rfl
    | code c =>
      have spelled : spell (.code c :: ps) = c :: spell ps := rfl
      rw [spelled, Text.trimStart] at other
      rw [List.cons_append, findKeyword?]
      by_cases blank : Text.isBlank c = true
      · rw [List.dropWhile_cons_of_pos blank] at other
        simp [blank, ih inLine' other]
      · rw [List.dropWhile_cons_of_neg blank] at other
        have missing : dropWord? Keyword.record (.code c :: (ps ++ tail)) = none := by
          rw [Option.eq_none_iff_forall_ne_some]
          intro after dropped
          rw [← List.cons_append] at dropped
          have starts := startsWith_of_dropWord? (by decide) ends dropped
          rw [spelled, other] at starts
          cases starts
        simp [blank, missing, rest]

/-- Lines that do not start with the keyword declare no struct. -/
theorem findKeyword?_unlines {ls : List Text} (free : ∀ line ∈ ls, line.CommentFree)
    (inLine : ∀ line ∈ ls, '\n' ∉ line)
    (other : ∀ line ∈ ls, line.trimStart.startsWith Keyword.record = false) :
    findKeyword? true (Text.unlines ls).pieces = none := by
  induction ls with
  | nil =>
    rw [Text.unlines_nil, Text.pieces_nil]
    rfl
  | cons line ls ih =>
    obtain ⟨ownFree, laterFree⟩ := List.forall_mem_cons.mp free
    obtain ⟨ownLine, laterLines⟩ := List.forall_mem_cons.mp inLine
    obtain ⟨ownStart, laterStarts⟩ := List.forall_mem_cons.mp other
    have noFeed := Text.lineFeed_not_mem_pieces ownLine
    rw [← Text.spell_pieces line] at ownStart
    cases ls with
    | nil =>
      have alone : findKeyword? true (line.pieces ++ []) = none :=
        findKeyword?_true_append noFeed ownStart (by simp) fun _ => rfl
      rwa [List.append_nil, ← Text.unlines_singleton line] at alone
    | cons next ls =>
      rw [Text.unlines_cons_cons, Text.pieces_append_lineFeed ownFree.endsWithText]
      refine findKeyword?_true_append noFeed ownStart (by simp) fun b => ?_
      exact findKeyword?_lineFeed b (ih laterFree laterLines laterStarts)

/-- A text without structs is left as it is. -/
theorem extractAll_of_none {className source text : Text} {records : List Record}
    (first : extractFirst text source = .ok none) :
    extractAll className source records text = .ok (records, text) := by
  rw [extractAll]
  split
  · next problem extracted =>
    rw [first] at extracted
    cases extracted
  · rfl
  · next found extracted =>
    rw [first] at extracted
    cases extracted

private theorem extractAll_of_findKeyword? {className source text : Text} {records : List Record}
    (none : findKeyword? true text.pieces = none) :
    extractAll className source records text = .ok (records, text) :=
  extractAll_of_none (by rw [extractFirst, none])

end Record

private theorem extractFromSlots_of_findKeyword? {className source : Text} {records : List Record}
    {unit : SourceUnit} {slots : List Slot}
    (none : ∀ slot ∈ slots, Record.findKeyword? true (unit.get slot).pieces = none) :
    extractFromSlots className source records unit slots = (.ok records, unit) := by
  induction slots with
  | nil => rfl
  | cons slot slots ih =>
    obtain ⟨first, later⟩ := List.forall_mem_cons.mp none
    rw [extractFromSlots, Record.extractAll_of_findKeyword? first]
    dsimp only
    rw [SourceUnit.fill_get, ih later]

/-! ### The lines of a unit -/

namespace Text

private theorem linesOfParts_append (before : List Text) {after : List Text}
    (nonempty : after ≠ []) :
    linesOfParts (before ++ after) = before.map dropReturn ++ linesOfParts after := by
  induction before with
  | nil => rfl
  | cons line before ih =>
    obtain ⟨next, rest, more⟩ := List.exists_cons_of_ne_nil
      (List.append_ne_nil_of_right_ne_nil before nonempty)
    rw [List.cons_append, more, linesOfParts.eq_3 _ _ (by simp), ← more, ih, List.map_cons,
      List.cons_append]

/-- A line feed at the end of a text adds no line. -/
theorem lines_concat_lineFeed (t : Text) :
    lines (t ++ ['\n']) = (t.splitOn '\n').map dropReturn := by
  rw [lines, List.splitOn_append_cons_self, linesOfParts_append _ (List.splitOn_ne_nil _ _)]
  exact List.append_nil _

/-- The lines of texts that meet at the start of a line come one after the other. -/
theorem lines_append {s : Text} (starts : s.LineStarts) (t : Text) :
    (s ++ t).lines = s.lines ++ t.lines := by
  rcases starts with rfl | last
  · rfl
  · obtain ⟨front, rfl⟩ := List.getLast?_eq_some_iff.mp last
    rw [lines_concat_lineFeed, List.append_assoc, List.singleton_append, lines,
      List.splitOn_append_cons_self, linesOfParts_append _ (List.splitOn_ne_nil _ _), lines]

private theorem lines_flatMap {α : Type} {make : α → Text} {items : List α}
    (starts : ∀ item ∈ items, (make item).LineStarts) :
    lines (items.flatMap make) = items.flatMap fun item => (make item).lines := by
  induction items with
  | nil => rfl
  | cons item items ih =>
    obtain ⟨first, later⟩ := List.forall_mem_cons.mp starts
    rw [List.flatMap_cons, lines_append first, ih later, List.flatMap_cons]

private theorem trimStart_tabs (t : Text) : trimStart (['\t', '\t'] ++ t) = trimStart t := by
  have blank : isBlank '\t' = true := by decide
  simp [trimStart, blank]

/-- Two tabs before a text are trimmed off. -/
theorem trim_tabs (t : Text) : trim (['\t', '\t'] ++ t) = trim t := by
  rw [trim, trimStart_tabs, trim]

/-- Lines hold no line feeds. -/
theorem not_mem_of_mem_lines {t line : Text} (member : line ∈ t.lines) : '\n' ∉ line := by
  have each := forall_mem_lines (fun line => '\n' ∉ line) List.not_mem_nil ?_ t
  · exact each.mpr (fun part => not_mem_of_mem_splitOn) line member
  · intro line
    rcases dropReturn_cases line with same | whole
    · rw [same]
    · conv_rhs => rw [whole]
      simp

end Text

namespace SourceUnit

private theorem lineStarts_endLine (t : Text) : (endLine t).LineStarts := by
  unfold endLine
  split
  · next ends =>
    obtain ⟨front, rfl⟩ := List.isSuffixOf_iff_suffix.mp ends
    exact .inr List.getLast?_concat
  · exact .inr List.getLast?_concat

/-- The lines of some slots of a unit, blank ones left out. -/
def compactLines (unit : SourceUnit) (slots : List Slot) : List Text :=
  slots.flatMap fun slot =>
    (Text.lines (if unit.get slot = [] then [] else endLine (unit.get slot))).filter
      fun line => line.trim ≠ []

private theorem compactLines_append (unit : SourceUnit) (slots others : List Slot) :
    unit.compactLines (slots ++ others) = unit.compactLines slots ++ unit.compactLines others :=
  List.flatMap_append

private theorem compact_eq (unit : SourceUnit) :
    unit.compact = (unit.compactLines Slot.template).flatMap (· ++ ['\n']) := by
  rw [compact, render, Text.lines_flatMap, compactLines, List.filter_flatMap]
  intro slot _
  split
  · exact .inl rfl
  · exact lineStarts_endLine _

private theorem not_mem_of_mem_compactLines {unit : SourceUnit} {slots : List Slot} {line : Text}
    (member : line ∈ unit.compactLines slots) : '\n' ∉ line := by
  obtain ⟨slot, -, kept⟩ := List.mem_flatMap.mp member
  exact Text.not_mem_of_mem_lines (List.mem_of_mem_filter kept)

end SourceUnit

/-! ### Statements only -/

namespace Script

/-- A script without format calls in which no line of code starts with a keyword. -/
structure StatementsOnly (text : Text) : Prop where
  noCall : text.expandFirst = .ok none
  noKeyword : ∀ line ∈ (codeLines text).map (·.2),
    ∀ keyword ∈ [Keyword.imports, Keyword.global, Keyword.function, Keyword.record],
      line.startsWith keyword = false

private theorem itemsOfLines_of_statements {lines : List (Nat × Text)}
    (noKeyword : ∀ line ∈ lines.map (·.2),
      ∀ keyword ∈ [Keyword.imports, Keyword.global, Keyword.function, Keyword.record],
        line.startsWith keyword = false) :
    itemsOfLines lines = .ok (lines.map fun (_, line) => .statement line) := by
  induction lines with
  | nil => rw [itemsOfLines, List.map_nil]
  | cons numbered rest ih =>
    obtain ⟨n, line⟩ := numbered
    obtain ⟨own, later⟩ := List.forall_mem_cons.mp noKeyword
    have takes : Takes ((n, line) :: rest) [.statement line] rest :=
      .statement (own _ (by simp)) (own _ (by simp)) (own _ (by simp))
    rw [takes.itemsOfLines_eq, ih later]
    rfl

private theorem filterMap_zipIdx_statements (items : List Item) (ls : List Text) (start : Nat) :
    (((ls.map Item.statement).zipIdx start).filterMap fun (item, i) => field? items item i) = [] ∧
      (((ls.map Item.statement).zipIdx start).filterMap
        fun (item, i) => finalStatement? items item i) = ls := by
  induction ls generalizing start with
  | nil => exact ⟨rfl, rfl⟩
  | cons line ls ih =>
    obtain ⟨fields, statements⟩ := ih (start + 1)
    rw [List.map_cons, List.zipIdx_cons]
    refine ⟨fields, ?_⟩
    exact congrArg (line :: ·) statements

private theorem ofItems_of_statements (catalog : Catalog) {ls : List Text}
    (oneLine : ∀ line ∈ ls, Text.IsLine line) :
    ofItems catalog (ls.map .statement) =
      ⟨[], [], [], Text.unlines (ls.map (['\t', '\t'] ++ ·))⟩ := by
  have imports : (ls.map Item.statement).filterMap (Item.import? catalog) = [] := by
    rw [List.filterMap_map]
    exact List.filterMap_eq_nil_iff.mpr fun _ _ => rfl
  have functions : functionsOf (ls.map Item.statement) = [] := by
    rw [functionsOf, List.foldl_map]
    exact List.foldl_fixed ls
  obtain ⟨fields, statements⟩ := filterMap_zipIdx_statements (ls.map .statement) ls 0
  rw [ofItems, imports, functions, fields, statements, Text.indent, Text.lines_unlines oneLine]
  rfl

private theorem ofText_of_statementsOnly {text : Text} (only : StatementsOnly text)
    (catalog : Catalog) :
    ofText text catalog =
      .ok ⟨[], [], [], Text.unlines (((codeLines text).map (·.2)).map (['\t', '\t'] ++ ·))⟩ := by
  have items : (codeLines text).map (fun (_, line) => Item.statement line) =
      ((codeLines text).map (·.2)).map .statement := by
    rw [List.map_map]
    rfl
  rw [ofText, itemsOfLines_of_statements only.noKeyword, items]
  refine congrArg Except.ok (ofItems_of_statements catalog fun line member => ?_)
  exact (trimmedLine_of_mem_codeLines member).isLine

end Script

/-! ### The program -/

namespace Composition

/-- The line that opens the entry point. -/
def entryHeader : Text := "\tpublic static void main(String[] args) \x7b"

/-- The line that closes the entry point. -/
def entryFooter : Text := "\t\x7d"

/-- The lines of the entry point of some statements. -/
def entryLines (ls : List Text) : List Text :=
  entryHeader :: (ls.map (['\t', '\t'] ++ ·) ++ [entryFooter])

private theorem entryHeader_concat :
    entryHeader ++ ['\n'] = "\tpublic static void main(String[] args) \x7b\n" :=
  rfl

private theorem entryPoint_unlines (ls : List Text) :
    entryPoint (Text.unlines (ls.map (['\t', '\t'] ++ ·))) = Text.unlines (entryLines ls) := by
  have header : Text.unlines (entryLines ls) = entryHeader ++
      '\n' :: Text.unlines (ls.map (['\t', '\t'] ++ ·) ++ [entryFooter]) := by
    rw [entryLines, ← List.singleton_append, Text.unlines_append (by simp) (by simp),
      Text.unlines_singleton]
  unfold entryPoint
  dsimp only
  rw [← entryHeader_concat, header]
  cases ls with
  | nil =>
    rw [List.map_nil, Text.unlines_nil, if_pos rfl, List.nil_append, Text.unlines_singleton]
    simp [entryFooter]
  | cons line ls =>
    have filled : Text.unlines ((line :: ls).map (['\t', '\t'] ++ ·)) ≠ [] := by
      rw [List.map_cons, Text.unlines_append_cons]
      simp
    rw [if_neg filled, Text.unlines_append (by simp) (by simp), Text.unlines_singleton]
    simp [entryFooter]

private theorem forall_mem_entryLines {property : Text → Prop} {ls : List Text}
    (header : property entryHeader) (footer : property entryFooter)
    (tabbed : ∀ line ∈ ls, property (['\t', '\t'] ++ line)) :
    ∀ line ∈ entryLines ls, property line := by
  intro line member
  rw [entryLines, List.mem_cons, List.mem_append, List.mem_singleton] at member
  rcases member with rfl | listed | rfl
  · exact header
  · obtain ⟨own, inLines, rfl⟩ := List.mem_map.mp listed
    exact tabbed own inLines
  · exact footer

/-- The lines of the entry point are lines if the statements are. -/
theorem isLine_of_mem_entryLines {ls : List Text} (oneLine : ∀ line ∈ ls, Text.IsLine line) :
    ∀ line ∈ entryLines ls, Text.IsLine line := by
  refine forall_mem_entryLines ⟨by decide, by decide, by decide⟩
    ⟨by decide, by decide, by decide⟩ ?_
  intro line member
  have own := oneLine line member
  refine ⟨by simp, by simpa using own.inLine, ?_⟩
  rw [List.getLast?_append_of_ne_nil _ own.nonempty]
  exact own.last

private theorem getLast?_unlines_entryLines (ls : List Text) :
    (Text.unlines (entryLines ls)).getLast? = some '\x7d' := by
  rw [entryLines, ← List.cons_append, Text.unlines_append (by simp) (by simp),
    List.getLast?_append_of_ne_nil _ (by simp), Text.unlines_singleton]
  rfl

private theorem lines_endLine_entryLines {ls : List Text}
    (oneLine : ∀ line ∈ ls, Text.IsLine line) :
    Text.lines (SourceUnit.endLine (Text.unlines (entryLines ls))) = entryLines ls := by
  have each := isLine_of_mem_entryLines oneLine
  have parts : (Text.unlines (entryLines ls)).splitOn '\n' = entryLines ls :=
    List.splitOn_intercalate '\n' (fun line member => (each line member).inLine) (by
      simp [entryLines])
  have last := getLast?_unlines_entryLines ls
  have unended : ¬Text.endsWith (Text.unlines (entryLines ls)) ['\n'] = true := by
    intro ends
    obtain ⟨front, whole⟩ := List.isSuffixOf_iff_suffix.mp ends
    rw [← whole, List.getLast?_concat] at last
    cases last
  rw [SourceUnit.endLine, if_neg unended, Text.lines_concat_lineFeed, parts]
  conv_rhs => rw [← List.map_id (entryLines ls)]
  exact List.map_congr_left fun line member => (each line member).dropReturn_eq

/-- The slots that only the script fills. -/
theorem get_compose (script : Script) (className : Text) (catalog : Catalog) {slot : Slot}
    (imports : slot ≠ .catalogImports) (declarations : slot ≠ .catalogDeclarations)
    (functions : slot ≠ .builtinFunctions) :
    (script.compose className catalog).unit.get slot = (scriptPart script className).get slot := by
  unfold Script.compose
  dsimp only
  rw [SourceUnit.get_fill_of_ne _ _ imports, withEntries,
    SourceUnit.get_foldl_append _ _ declarations, SourceUnit.get_foldl_append _ _ functions]

section Statements

variable {ls : List Text} (code : ∀ line ∈ ls, Script.TrimmedLine line)
include code

private theorem findKeyword?_entryLines
    (noRecord : ∀ line ∈ ls, line.startsWith Keyword.record = false) :
    Record.findKeyword? true (Text.unlines (entryLines ls)).pieces = none := by
  have each : ∀ line ∈ entryLines ls, line.CommentFree ∧ '\n' ∉ line ∧
      line.trimStart.startsWith Keyword.record = false := by
    refine forall_mem_entryLines ?_ ?_ ?_
    · exact ⟨(Text.reads_of_isPlain (by decide)).free, by decide, by decide⟩
    · exact ⟨(Text.reads_of_isPlain (by decide)).free, by decide, by decide⟩
    · intro line member
      have own := code line member
      refine ⟨?_, by simpa using own.inLine, ?_⟩
      · exact (Text.Reads.plain_append ⟨own.free, rfl⟩ (by decide) (by decide)).free
      · have start := Text.trimStart_trim line
        rw [own.trimmed] at start
        rw [Text.trimStart_tabs, start]
        exact noRecord line member
  exact Record.findKeyword?_unlines (fun line member => (each line member).1)
    (fun line member => (each line member).2.1) fun line member => (each line member).2.2

private theorem compactLines_entryPoint {unit : SourceUnit}
    (filled : unit.get .entryPoint = Text.unlines (entryLines ls)) :
    unit.compactLines [.entryPoint] = entryLines ls := by
  have visible : ∀ line ∈ entryLines ls, decide (line.trim ≠ []) = true := by
    refine forall_mem_entryLines (by decide) (by decide) ?_
    intro line member
    have own := code line member
    rw [decide_eq_true_eq, Text.trim_tabs, own.trimmed]
    exact own.nonempty
  have nonempty : Text.unlines (entryLines ls) ≠ [] := by
    intro empty
    have last := getLast?_unlines_entryLines ls
    rw [empty] at last
    cases last
  rw [SourceUnit.compactLines, List.flatMap_singleton, filled, if_neg nonempty,
    lines_endLine_entryLines fun line member => (code line member).isLine,
    List.filter_eq_self.mpr visible]

end Statements

end Composition

namespace Program

/-- Whether a source has the lines of an entry point of given statements between others. -/
structure LaidOut (source : Text) (front ls back : List Text) : Prop where
  source : source = (front ++ (Composition.entryLines ls ++ back)).flatMap (· ++ ['\n'])
  inLine : ∀ line ∈ front ++ back, '\n' ∉ line

/-- The lines of code of a script of statements are the lines of the entry point. -/
theorem exists_laidOut {text : Text} {fileName : Path} {catalog : Catalog} {program : Program}
    (made : ofScript text fileName catalog = .ok program) (only : Script.StatementsOnly text) :
    ∃ front back, LaidOut program.source front ((Script.codeLines text).map (·.2)) back := by
  obtain ⟨-, r, script, expanded, taken, source⟩ := exists_of_ofScript made
  rw [Text.expandAll_eq, only.noCall] at expanded
  cases expanded
  rw [Script.ofText_of_statementsOnly only] at taken
  cases taken
  have code : ∀ line ∈ (Script.codeLines text).map (·.2), Script.TrimmedLine line :=
    fun line => Script.trimmedLine_of_mem_codeLines
  have noRecord : ∀ line ∈ (Script.codeLines text).map (·.2),
      line.startsWith Keyword.record = false :=
    fun line member => only.noKeyword line member _ (by simp)
  generalize (Script.codeLines text).map (·.2) = ls at *
  generalize unit_eq : (Script.compose _ fileName.className catalog).unit = unit at source
  have entry : unit.get .entryPoint = Text.unlines (Composition.entryLines ls) := by
    rw [← unit_eq, Composition.get_compose _ _ _ (by decide) (by decide) (by decide)]
    exact Composition.entryPoint_unlines ls
  have functions : unit.get .userFunctions = [] := by
    rw [← unit_eq, Composition.get_compose _ _ _ (by decide) (by decide) (by decide)]
    rfl
  have untouched : (takeRecords unit fileName.className text).2 = unit := by
    rw [takeRecords, extractFromSlots_of_findKeyword?]
    refine List.forall_mem_cons.mpr ⟨?_, List.forall_mem_singleton.mpr ?_⟩
    · rw [entry]
      exact Composition.findKeyword?_entryLines code noRecord
    · rw [functions, Text.pieces_nil]
      rfl
  have template : Slot.template =
      [.catalogImports, .userImports, .classHeader, .catalogDeclarations, .userGlobals] ++
        ([.entryPoint] ++ [.userFunctions, .builtinFunctions, .classFooter]) := rfl
  rw [untouched, SourceUnit.compact_eq, template, SourceUnit.compactLines_append,
    SourceUnit.compactLines_append, Composition.compactLines_entryPoint code entry] at source
  refine ⟨_, _, source, fun line member => ?_⟩
  rcases List.mem_append.mp member with inFront | inBack
  · exact SourceUnit.not_mem_of_mem_compactLines inFront
  · exact SourceUnit.not_mem_of_mem_compactLines inBack

end Program

end ScriptLoom
