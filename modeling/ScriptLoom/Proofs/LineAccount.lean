import ScriptLoom.Proofs.MethodRecords
import ScriptLoom.Proofs.Places

/-! # The account of the lines of a script

The trimmed lines of a script without comments and blank lines are its program. Top-level
constructs divide the program without gap or overlap, a function running through the brace that
matches its first one (`Script.Taken.exists_constructs`), and the script is made of what each
construct gives: an import, a field at most, a method, statements (`Script.exists_accounts`).
-/

namespace ScriptLoom

namespace Global

/-- A global has an initializer exactly if there is an equals sign on its line. -/
theorem initializer_ofLine_eq_none_iff {line : Text} (trimmed : line.trim = line)
    (starts : line.startsWith Keyword.global = true) :
    (ofLine line).initializer = none ↔ '=' ∉ line := by
  obtain ⟨body, rfl⟩ := List.isPrefixOf_iff_prefix.mp starts
  have inBody : '=' ∈ Keyword.global ++ body ↔ '=' ∈ Text.trim body := by
    obtain ⟨before, after, whole, blank, blank'⟩ := Text.exists_eq_append_trim body
    have visible : ∀ blanks : Text, (∀ c ∈ blanks, Text.isBlank c = true) → '=' ∉ blanks :=
      fun blanks each member => absurd (each _ member) (by decide)
    have keyword : '=' ∉ Keyword.global := by decide
    conv_lhs => rw [whole]
    simp [keyword, visible before blank, visible after blank']
  rw [ofLine_eq trimmed, inBody]
  cases cut : Text.cutAt? '=' (Text.trim body) with
  | some parts =>
    have := (Text.cutAt?_eq_some cut).1
    simp [initializer_ofDeclarator, this]
  | none =>
    have := Text.cutAt?_eq_none cut
    simp [initializer_ofDeclarator, this]

end Global

namespace Script

/-! ### Constructs -/

/-- What stands at the top level of a script: a line, or a function behind its keyword with what
follows it on the line of its closing brace. -/
inductive Construct where
  | importLine (line : Text)
  | globalLine (line : Text)
  | function (text trailing : Text)
  | statement (line : Text)

namespace Construct

/-- The code that a construct takes up. -/
def code : Construct → Text
  | .importLine line => line
  | .globalLine line => line
  | .function text trailing => Keyword.function ++ text ++ trailing
  | .statement line => line

/-- Whether a construct is what a program has at an offset where a line starts. -/
def Stands (program : Text) (start : Nat) : Construct → Prop
  | .importLine line => '\n' ∉ line ∧ line.startsWith Keyword.imports = true
  | .globalLine line => '\n' ∉ line ∧ line.startsWith Keyword.global = true
  | .function text trailing => '\n' ∉ trailing ∧ ∃ opening closing,
      program.findCode? start '{' = some opening ∧
      program.matchingBracket? opening '{' '}' = some closing ∧
      closing + 1 = start + Text.size (Keyword.function ++ text)
  | .statement line => '\n' ∉ line ∧ line.startsWith Keyword.imports = false ∧
      line.startsWith Keyword.global = false ∧ line.startsWith Keyword.function = false

/-- Whether constructs stand one after the other in a program, the first one at an offset. -/
def StandFrom (program : Text) : Nat → List Construct → Prop
  | _, [] => True
  | start, c :: constructs =>
    c.Stands program start ∧ StandFrom program (start + Text.size c.code + 1) constructs

/-- The imports that a construct gives, as they stand in the script. -/
def imports (catalog : Catalog) : Construct → List Text
  | .importLine line => if line ∈ catalog.imports then [] else [line]
  | _ => []

/-- The field that a construct may give. -/
def field? : Construct → Option Declaration
  | .globalLine line =>
    let g := Global.ofLine line
    some ⟨g.name, "public static " ++ g.type ++ " " ++ g.name ++ ";"⟩
  | _ => none

/-- The function that a construct gives. -/
def function? : Construct → Option Text
  | .function text _ => some text
  | _ => none

/-- Whether a construct leaves given statements for the entry point: the initializer of a global
as an assignment or as a local declaration. -/
def Leaves : Construct → List Text → Prop
  | .importLine _, statements => statements = []
  | .globalLine line, statements =>
    if '=' ∈ line then
      ∃ value, (Global.ofLine line).initializer = some value ∧
        (statements = [assignment (Global.ofLine line) value] ∨
          statements = [(Global.ofLine line).type ++ " " ++ (Global.ofLine line).name ++ " = " ++
            value])
    else statements = []
  | .function _ trailing, statements =>
    statements = if trailing.trim = [] then [] else [trailing.trim]
  | .statement line, statements => statements = [line]

/-- The items that a construct is taken apart into. -/
def items : Construct → List Item
  | .importLine line => [.importLine line]
  | .globalLine line => [.globalLine line]
  | .function text trailing =>
    .function text :: if trailing.trim = [] then [] else [.statement trailing.trim]
  | .statement line => [.statement line]

end Construct

/-! ### The program divided -/

/-- A function stands where it was cut off. -/
theorem stands_of_function_cutBlock? {t program text after : Text} {front : List Piece}
    (starts : t.startsWith Keyword.function = true)
    (cut : t.cutBlock? = some (Keyword.function ++ text, after))
    (placed : program.pieces = front ++ t.pieces) :
    (Construct.function text (after.takeWhile (· ≠ '\n'))).Stands program
      (Text.size (spell front)) := by
  obtain ⟨own, header, inside, same, -, parts, body, first, balanced⟩ :=
    exists_of_function_cutBlock? starts cut
  obtain rfl : text = own := List.append_cancel_left same
  have unopened : .code '{' ∉ Keyword.function.map .code ++ header := by
    rw [List.mem_append, not_or]
    exact ⟨by decide, first⟩
  have opened : program.pieces = front ++ ((Keyword.function.map .code ++ header) ++
      .code '{' :: (inside ++ .code '}' :: after.pieces)) := by
    rw [placed, parts, body]
    simp
  have closed : program.pieces = (front ++ (Keyword.function.map .code ++ header)) ++
      .code '{' :: (inside ++ .code '}' :: after.pieces) := by
    rw [opened, ← List.append_assoc front]
  have spelled : text = spell header ++ '{' :: (spell inside ++ ['}']) := by
    rw [← Text.spell_pieces text, body]
    simp [Piece.text]
  have matched := Text.matchingBracket?_of_pieces (by decide) closed balanced
  rw [spell_append front (Keyword.function.map Piece.code ++ header), Text.size_append] at matched
  refine ⟨fun feed => ?_, _, _, Text.findCode?_of_pieces opened unopened, matched, ?_⟩
  · exact absurd (List.mem_takeWhile_imp feed) (by decide)
  · rw [spelled]
    simp only [spell_append, spell_map_code, spell_cons, Piece.text, Text.size_append,
      Text.size_cons, Text.size_nil, List.singleton_append]
    have : '}'.utf8Size = 1 := rfl
    omega

private theorem Takes.exists_construct {lines rest : List (Nat × Text)} {items : List Item}
    (takes : Takes lines items rest) (each : ∀ line ∈ lines.map (·.2), TrimmedLine line)
    {program : Text} {front : List Piece}
    (placed : program.pieces = front ++ Text.pieces (Text.unlines (lines.map (·.2)))) :
    ∃ c : Construct, c.items = items ∧
      lines.map (·.2) = c.code.splitOn '\n' ++ rest.map (·.2) ∧
      c.Stands program (Text.size (spell front)) := by
  cases takes with
  | @importLine n line rest starts =>
    have inLine := (each line List.mem_cons_self).inLine
    refine ⟨.importLine line, rfl, ?_, inLine, starts⟩
    rw [Construct.code, List.splitOn_eq_singleton inLine]
    rfl
  | @globalLine n line rest starts =>
    have inLine := (each line List.mem_cons_self).inLine
    refine ⟨.globalLine line, rfl, ?_, inLine, starts⟩
    rw [Construct.code, List.splitOn_eq_singleton inLine]
    rfl
  | @statement n line rest noImport noGlobal noFunction =>
    have inLine := (each line List.mem_cons_self).inLine
    refine ⟨.statement line, rfl, ?_, inLine, noImport, noGlobal, noFunction⟩
    rw [Construct.code, List.splitOn_eq_singleton inLine]
    rfl
  | @function n line block after rest starts cut =>
    have starts' := startsWith_unlines starts (rest.map (·.2))
    obtain ⟨text, -, -, rfl, whole, -⟩ := exists_of_function_cutBlock? starts' cut
    have inLine : ∀ l ∈ line :: rest.map (·.2), '\n' ∉ l := fun l member => (each l member).inLine
    refine ⟨.function text (after.takeWhile (· ≠ '\n')), ?_, ?_,
      stands_of_function_cutBlock? starts' cut placed⟩
    · rw [List.drop_left]
      rfl
    · have lines : (Text.unlines (line :: rest.map (·.2))).splitOn '\n' = line :: rest.map (·.2) :=
        List.splitOn_intercalate '\n' inLine (by simp)
      rw [whole, Text.splitOn_append_takeWhile, tail_splitOn_of_unlines inLine whole] at lines
      rw [List.map_cons, ← lines, List.map_drop]
      rfl

/-- Constructs divide the lines of a program. -/
theorem Taken.exists_constructs {lines : List (Nat × Text)} {items : List Item}
    (taken : Taken lines items) (each : ∀ line ∈ lines.map (·.2), TrimmedLine line)
    {program : Text} {front : List Piece}
    (placed : lines ≠ [] →
      program.pieces = front ++ Text.pieces (Text.unlines (lines.map (·.2)))) :
    ∃ constructs : List Construct, constructs.flatMap Construct.items = items ∧
      constructs.flatMap (·.code.splitOn '\n') = lines.map (·.2) ∧
      Construct.StandFrom program (Text.size (spell front)) constructs := by
  induction taken generalizing front with
  | nil => exact ⟨[], rfl, rfl, trivial⟩
  | @step lines rest items further takes later ih =>
    have nonempty : lines ≠ [] := List.ne_nil_of_length_pos (Nat.zero_lt_of_lt takes.length_lt)
    obtain ⟨c, own, divided, stands⟩ := takes.exists_construct each (placed nonempty)
    have code : Text.unlines (c.code.splitOn '\n') = c.code := List.intercalate_splitOn '\n'
    have free : c.code.CommentFree := by
      rw [← code]
      refine (Text.Reads.unlines fun line member => (each line ?_).free).free
      rw [divided]
      exact List.mem_append_left _ member
    -- The next construct starts behind the line feed after this one.
    have behind : rest ≠ [] → program.pieces = (front ++ (c.code.pieces ++ [.code '\n'])) ++
        Text.pieces (Text.unlines (rest.map (·.2))) := by
      intro more
      rw [placed nonempty, divided,
        Text.unlines_append (List.splitOn_ne_nil _ _) (by simpa using more), code,
        Text.pieces_append_lineFeed free.endsWithText]
      simp
    obtain ⟨constructs, items_eq, lines_eq, following⟩ := ih
      (fun line member => each line ((takes.isSuffix.map Prod.snd).subset member)) behind
    refine ⟨c :: constructs, ?_, ?_, stands, ?_⟩
    · rw [List.flatMap_cons, own, items_eq]
    · rw [List.flatMap_cons, lines_eq, divided]
    · rw [spell_append, spell_append, Text.spell_pieces, Text.size_append, Text.size_append,
        ← Nat.add_assoc] at following
      exact following

/-! ### What the constructs give -/

section Parts

variable (constructs : List Construct)

private theorem map_text_imports (catalog : Catalog) :
    ((constructs.flatMap Construct.items).filterMap (Item.import? catalog)).map (·.text) =
      constructs.flatMap (Construct.imports catalog) := by
  rw [List.filterMap_flatMap, List.map_flatMap]
  apply List.flatMap_congr
  intro c _
  cases c with
  | importLine line =>
    by_cases known : line ∈ catalog.imports <;>
      simp [Construct.items, Construct.imports, Item.import?, known]
  | globalLine line => rfl
  | function text trailing =>
    rw [Construct.items]
    split <;> rfl
  | statement line => rfl

private theorem filterMap_functionText? :
    (constructs.flatMap Construct.items).filterMap Item.functionText? =
      constructs.filterMap Construct.function? := by
  rw [List.filterMap_flatMap, List.filterMap_eq_flatMap_toList]
  apply List.flatMap_congr
  intro c _
  cases c with
  | importLine line => rfl
  | globalLine line => rfl
  | function text trailing =>
    rw [Construct.items]
    split <;> rfl
  | statement line => rfl

/-- A construct gives at most its field. -/
theorem sublist_filterMap_field? (items : List Item) (start : Nat) :
    List.Sublist
      (((constructs.flatMap Construct.items).zipIdx start).filterMap
        fun (item, i) => field? items item i)
      (constructs.filterMap Construct.field?) := by
  induction constructs generalizing start with
  | nil => exact List.Sublist.refl _
  | cons c constructs ih =>
    rw [List.flatMap_cons, List.zipIdx_append, List.filterMap_append,
      ← List.singleton_append, List.filterMap_append]
    refine List.Sublist.append ?_ (ih _)
    cases c with
    | importLine line => exact List.Sublist.refl _
    | globalLine line =>
      by_cases used : isUsed items start (Global.ofLine line).name = true <;>
        simp [Construct.items, Construct.field?, field?, used]
    | function text trailing =>
      rw [Construct.items]
      split <;> exact List.Sublist.refl _
    | statement line => exact List.Sublist.refl _

/-- The statements of a construct, its items being counted from a given index on. -/
theorem leaves_filterMap_finalStatement? {c : Construct} (laid : ∀ item ∈ c.items, item.Laid)
    (items : List Item) (start : Nat) :
    c.Leaves ((c.items.zipIdx start).filterMap fun (item, i) => finalStatement? items item i) := by
  cases c with
  | importLine line => rfl
  | globalLine line =>
    obtain ⟨code, starts⟩ := laid _ (List.mem_singleton_self _)
    have noSign := Global.initializer_ofLine_eq_none_iff code.trimmed starts
    rw [Construct.items, List.zipIdx_singleton, Construct.Leaves]
    cases made : finalStatement? items (.globalLine line) start with
    | none =>
      rw [if_neg (noSign.mp (initializer_of_finalStatement?_eq_none made))]
      simp only [List.filterMap_cons, made, List.filterMap_nil]
    | some text =>
      simp only [List.filterMap_cons, made, List.filterMap_nil]
      obtain ⟨value, given, form⟩ := exists_of_finalStatement?_globalLine made
      have sign : '=' ∈ line := by
        by_contra absent
        rw [noSign.mpr absent] at given
        cases given
      rw [if_pos sign]
      exact ⟨value, given, form.imp (congrArg (fun s => [s])) (congrArg (fun s => [s]))⟩
  | function text trailing =>
    rw [Construct.items, Construct.Leaves]
    split <;> rfl
  | statement line => rfl

private theorem exists_leaves (laid : ∀ item ∈ constructs.flatMap Construct.items, item.Laid)
    (items : List Item) (start : Nat) :
    ∃ groups, List.Forall₂ Construct.Leaves constructs groups ∧
      (((constructs.flatMap Construct.items).zipIdx start).filterMap
        fun (item, i) => finalStatement? items item i) = groups.flatten := by
  induction constructs generalizing start with
  | nil => exact ⟨[], .nil, rfl⟩
  | cons c constructs ih =>
    rw [List.flatMap_cons] at laid
    have own := leaves_filterMap_finalStatement?
      (fun item member => laid item (List.mem_append_left _ member)) items start
    obtain ⟨groups, later, rest⟩ := ih
      (fun item member => laid item (List.mem_append_right _ member)) (start + c.items.length)
    refine ⟨_ :: groups, .cons own later, ?_⟩
    rw [List.flatMap_cons, List.zipIdx_append, List.filterMap_append, rest, List.flatten_cons]

end Parts

/-! ### The account -/

/-- The lines of a text without comments, trimmed and without blank ones. -/
def programLines (text : Text) : List Text :=
  (text.withoutComments.lines.map Text.trim).filter (· ≠ [])

/-- Whether a script is made of top-level constructs that divide the program of a text. -/
structure Accounts (text : Text) (catalog : Catalog) (script : Script)
    (constructs : List Construct) : Prop where
  lines : constructs.flatMap (·.code.splitOn '\n') = programLines text
  stand : Construct.StandFrom (Text.unlines (programLines text)) 0 constructs
  imports : script.imports.map (·.text) = constructs.flatMap (Construct.imports catalog)
  globals : List.Sublist script.globals (constructs.filterMap Construct.field?)
  methods : ∀ function ∈ constructs.filterMap Construct.function?,
    Tabbed ("public static " ++ function.trimStart) (methodText function)
  functions : script.functions =
    records ((constructs.filterMap Construct.function?).map methodText)
  statements : ∃ groups, List.Forall₂ Construct.Leaves constructs groups ∧
    script.entryBody = Text.unlines (groups.flatten.map ("\t\t" ++ ·))

/-- A text that is taken apart is divided into top-level constructs, and the script is made of
what they give. -/
theorem exists_accounts {text : Text} {catalog : Catalog} {script : Script}
    (taken : ofText text catalog = .ok script) :
    ∃ constructs, Accounts text catalog script constructs := by
  obtain ⟨items, steps, rfl⟩ := exists_of_ofText taken
  have each : ∀ line ∈ (codeLines text).map (·.2), TrimmedLine line :=
    fun line => trimmedLine_of_mem_codeLines
  have placed : codeLines text ≠ [] → Text.pieces (Text.unlines ((codeLines text).map (·.2))) =
      [] ++ Text.pieces (Text.unlines ((codeLines text).map (·.2))) := fun _ => rfl
  obtain ⟨constructs, rfl, lines, stand⟩ := steps.exists_constructs each placed
  have laid := steps.laid each
  rw [map_snd_codeLines] at lines stand
  obtain ⟨groups, leave, statements_eq⟩ :=
    exists_leaves constructs laid (constructs.flatMap Construct.items) 0
  refine ⟨constructs, lines, stand, map_text_imports constructs catalog,
    sublist_filterMap_field? constructs _ 0, ?_, ?_, groups, leave, ?_⟩
  · intro function member
    rw [← filterMap_functionText?] at member
    obtain ⟨item, listed, own⟩ := List.mem_filterMap.mp member
    cases item with
    | function text =>
      cases own
      exact tabbed_methodText (laid _ listed).2
    | importLine line => cases own
    | globalLine line => cases own
    | statement text => cases own
  · rw [← filterMap_functionText?]
    exact functionsOf_eq_records _
  · have oneLine : ∀ s ∈ groups.flatten, Text.IsLine s := by
      rw [← statements_eq]
      exact isLine_of_mem_statements laid
    rw [ofItems, statements_eq, Text.indent, Text.lines_unlines oneLine]
    rfl

/-- A statement behind a function, overloads, and an import that the library has. -/
theorem exists_accounts_of_overloads :
    let text : Text := "import a.B;\nimport a.C;\nglobal int n = 3; // count\n" ++
      "func int f(int a) \x7b return a; \x7d f(n);\nfunc int f() \x7b\nreturn n;\n\x7d\n\nf();"
    let catalog : Catalog := ⟨[], [], ["import a.B;"]⟩
    let script : Script := ⟨[⟨"C", "import a.C;"⟩], [⟨"n", "public static int n;"⟩],
      [⟨"f", "public static int f(int a) \x7b return a; \x7d\n\n" ++
        "public static int f() \x7b\n\treturn n;\n\x7d"⟩], "\t\tn = 3;\n\t\tf(n);\n\t\tf();"⟩
    ofText text catalog = .ok script ∧ ∃ constructs, Accounts text catalog script constructs := by
  intro text catalog script
  have taken : ofText text catalog = .ok script := by decide +kernel
  exact ⟨taken, exists_accounts taken⟩

/-- A method loses the blanks between the keyword and its header. -/
theorem not_tabbed_of_wide_keyword :
    ofText "func  void f() \x7b\x7d" .empty =
        .ok ⟨[], [], [⟨"f", "public static void f() \x7b\x7d"⟩], []⟩ ∧
      ¬Tabbed ("public static " ++ " void f() \x7b\x7d") "public static void f() \x7b\x7d" := by
  refine ⟨by decide +kernel, ?_⟩
  intro tabbed
  rw [Tabbed, List.splitOn_eq_singleton (by decide), List.splitOn_eq_singleton (by decide),
    List.forall₂_cons] at tabbed
  obtain ⟨⟨tabs, deeper⟩, -⟩ := tabbed
  have longer := congrArg List.length deeper
  simp at longer

end Script

end ScriptLoom
