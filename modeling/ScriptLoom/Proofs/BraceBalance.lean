import ScriptLoom.Proofs.Acceptance
import ScriptLoom.Proofs.MentionClosure
import ScriptLoom.Proofs.PlainLines
import ScriptLoom.Proofs.RecordBraces
import ScriptLoom.Proofs.ScriptBraces
import ScriptLoom.Program

/-! # A program has balanced braces

The slots of a unit hold texts without comments, so the braces of the unit are those of its slots in
template order. In the unit of a script, the class header and footer are around everything, the
library texts are balanced by themselves, and the entry point leaves open what the functions of
the script close (`SourceUnit.Level`). Taking structs out keeps that
(`SourceUnit.Level.extractFromSlots`), and the main unit of every program comes out balanced.
-/

namespace ScriptLoom

namespace Text

/-- The characters of identifiers are plain and no braces. -/
theorem isPlain_of_isIdentChar {c : Char} (ident : isIdentChar c = true) :
    isPlain c = true ∧ isBracket '{' '}' c = false := by
  have ne : ∀ d, isIdentChar d = false → c ≠ d := by
    rintro d other rfl
    exact absurd ident (by simp [other])
  simp [isPlain, Region.ofQuote?, isBracket, ne '"' (by decide), ne '\'' (by decide),
    ne '/' (by decide), ne '{' (by decide), ne '}' (by decide)]

/-- A text of plain characters reads as the braces in it. -/
theorem reads_of_isPlain {t : Text} (plain : ∀ c ∈ t, isPlain c = true) :
    t.Reads (t.filter (isBracket '{' '}')) := by
  have pieces := pieces_plain plain
  refine ⟨?_, ?_⟩
  · intro p member
    rw [pieces] at member
    obtain ⟨c, _, rfl⟩ := List.mem_map.mp member
    rfl
  · rw [braces, codeIn, pieces, codeOf_map_code]

/-- A line without braces, quotes and comment openers. -/
theorem silent_of_unopened {s : Text} (plain : ∀ c ∈ s, isBraceOrQuote c = false)
    (noLine : ¬['/', '/'] <:+: s) (noBlock : ¬['/', '*'] <:+: s) : s.Silent := by
  refine ⟨?_, fun c member => (isBracket_of_isBraceOrQuote (plain c member)).1⟩
  induction s with
  | nil => simp
  | cons c s ih =>
    have rest := ih (fun d later => plain d (List.mem_cons_of_mem _ later))
      (fun opener => noLine (opener.trans (List.suffix_cons c s).isInfix))
      fun opener => noBlock (opener.trans (List.suffix_cons c s).isInfix)
    rw [pieces_code (isBracket_of_isBraceOrQuote (plain c List.mem_cons_self)).2, rest,
      List.map_cons]
    rintro rfl
    constructor
    · intro head
      obtain ⟨tail, rfl⟩ := List.head?_eq_some_iff.mp head
      exact noLine ⟨[], tail, rfl⟩
    · intro head
      obtain ⟨tail, rfl⟩ := List.head?_eq_some_iff.mp head
      exact noBlock ⟨[], tail, rfl⟩

/-- A header with `static` behind its visibility, unless it stands there. -/
def staticHeader (visibility rest : Text) : Text :=
  if rest.startsWith "static " then visibility ++ rest else visibility ++ ("static " ++ rest)

/-- The header of a member is made static behind its visibility, and at its front when it has
none. -/
theorem exists_asStatic_eq (line : Text) :
    ∃ visibility rest, line.trim = visibility ++ rest ∧
      line.asStatic = '\t' :: staticHeader visibility rest ∧
      (visibility ∈ visibilities ∨ visibility = [] ∧ ∀ v ∈ visibilities, ¬v <+: line.trim) := by
  unfold asStatic
  dsimp only
  split
  · next header found =>
    obtain ⟨visibility, listed, result⟩ := List.exists_of_findSome?_eq_some found
    obtain ⟨rest, dropped, rfl⟩ := Option.map_eq_some_iff.mp result
    have whole := dropPrefix?_eq_some dropped
    refine ⟨visibility, rest, whole, ?_, .inl listed⟩
    rw [staticHeader]
    split
    · rw [whole]
    · rw [List.append_assoc, List.cons_append]
  · next none =>
    refine ⟨[], line.trim, rfl, ?_, .inr ⟨rfl, ?_⟩⟩
    · rw [staticHeader]
      split <;> rfl
    · rintro v listed ⟨rest, whole⟩
      have nothing := List.findSome?_eq_none_iff.mp none v listed
      rw [← whole, dropPrefix?_append] at nothing
      cases nothing

/-- A header and its static form have the same code behind the words in front. -/
theorem exists_leadsTo_asStatic (line : Text) :
    ∃ rest, line.trim.LeadsTo rest ∧ line.asStatic.LeadsTo rest := by
  obtain ⟨visibility, rest, whole, made, place⟩ := exists_asStatic_eq line
  have words : ∀ v ∈ visibilities, ∀ c ∈ v, isPlain c = true ∧ isBracket '{' '}' c = false := by
    decide
  have plain : ∀ c ∈ visibility, isPlain c = true ∧ isBracket '{' '}' c = false := by
    rcases place with listed | ⟨rfl, -⟩
    · exact words visibility listed
    · simp
  have leads := LeadsTo.of_plain (fun c member => (plain c member).1)
    fun c member => (plain c member).2
  have tab : ∀ t : Text, LeadsTo ('\t' :: t) t := LeadsTo.of_blanks (by decide : ∀ c ∈ ['\t'], _)
  refine ⟨rest, whole ▸ leads rest, ?_⟩
  rw [made, staticHeader]
  split
  · exact (tab _).trans (leads rest)
  · exact ((tab _).trans (leads _)).trans (LeadsTo.of_plain (by decide) (by decide) rest)

/-- The modifier of a method changes no braces. -/
theorem Reads.asStatic {t word : Text} (reads : t.Reads word) : t.asStatic.Reads word := by
  obtain ⟨rest, leads, made⟩ := exists_leadsTo_asStatic t
  exact made.reads_iff.mpr (leads.reads_iff.mp reads.trim)

end Text

/-! ### Units -/

namespace SourceUnit

/-- Whether no slot of a unit holds a comment and the braces of the slots are balanced. -/
structure Level (unit : SourceUnit) : Prop where
  free : ∀ slot, (unit.get slot).CommentFree
  braces : nesting '{' '}' 0 (Slot.template.flatMap fun slot => (unit.get slot).braces) = some 0

private theorem exists_flatMap_fill (unit : SourceUnit) (slot : Slot) :
    ∃ u v, ∀ text, Slot.template.flatMap (fun other => ((unit.fill slot text).get other).braces) =
      u ++ (text.braces ++ v) := by
  have listed : slot ∈ Slot.template := by cases slot <;> decide
  have distinct : Slot.template.Nodup := by decide
  obtain ⟨before, after, whole⟩ := List.append_of_mem listed
  rw [whole, List.nodup_append, List.nodup_cons] at distinct
  refine ⟨before.flatMap fun other => (unit.get other).braces,
    after.flatMap fun other => (unit.get other).braces, ?_⟩
  intro text
  have kept : ∀ slots : List Slot, slot ∉ slots →
      slots.flatMap (fun other => ((unit.fill slot text).get other).braces) =
        slots.flatMap fun other => (unit.get other).braces := by
    intro slots absent
    apply List.flatMap_congr
    intro other member
    rw [get_fill_of_ne unit text (ne_of_mem_of_not_mem member absent)]
  rw [whole, List.flatMap_append, List.flatMap_cons, get_fill_self, kept after distinct.2.1.1,
    kept before fun member => distinct.2.2 slot member slot List.mem_cons_self rfl]

/-- Texts that are appended to a slot leave the other slots alone. -/
theorem get_foldl_append (unit : SourceUnit) (texts : List Text) {slot other : Slot}
    (differ : other ≠ slot) :
    (texts.foldl (fun unit text => unit.append slot text) unit).get other = unit.get other := by
  induction texts generalizing unit with
  | nil => rfl
  | cons text texts ih =>
    rw [List.foldl_cons, ih, append, get_fill_of_ne _ _ differ]

/-- To fill a slot with what it holds changes nothing. -/
theorem fill_get (unit : SourceUnit) (slot : Slot) : unit.fill slot (unit.get slot) = unit := by
  simp only [fill]
  congr 1
  funext other
  split
  · next same => rw [same]
  · rfl

namespace Level

variable {unit : SourceUnit} {slot : Slot} {text word : Text}

private theorem fill (level : unit.Level) (free : text.CommentFree)
    (replaces : text.Replaces (unit.get slot)) : (unit.fill slot text).Level := by
  refine ⟨?_, ?_⟩
  · intro other
    by_cases same : other = slot
    · rw [same, get_fill_self]
      exact free
    · rw [get_fill_of_ne unit text same]
      exact level.free other
  · obtain ⟨u, v, word⟩ := exists_flatMap_fill unit slot
    rw [word]
    apply replaces
    rw [← word, fill_get]
    exact level.braces

private theorem append (level : unit.Level) (slot : Slot) (reads : text.Reads word)
    (balanced : nesting '{' '}' 0 word = some 0) : (unit.append slot text).Level := by
  have grown : ((unit.append slot text).get slot).Reads ((unit.get slot).braces ++ word) :=
    Text.Reads.slot_append ⟨level.free slot, rfl⟩ reads
  rw [SourceUnit.append, get_fill_self] at grown
  apply level.fill grown.free
  intro depth final u v reached
  rw [grown.braces, List.append_assoc, ← List.append_assoc u]
  rw [← List.append_assoc] at reached
  exact nesting_insert balanced reached

private theorem foldl_append (level : unit.Level) (slot : Slot) {texts : List Text}
    (each : ∀ text ∈ texts, ∃ word, text.Reads word ∧ nesting '{' '}' 0 word = some 0) :
    (texts.foldl (fun unit text => unit.append slot text) unit).Level := by
  induction texts generalizing unit with
  | nil => exact level
  | cons text texts ih =>
    obtain ⟨word, reads, balanced⟩ := each text List.mem_cons_self
    exact ih (level.append slot reads balanced) fun other later =>
      each other (List.mem_cons_of_mem _ later)

/-- The text of a level unit is balanced. -/
theorem balanced_compact (level : unit.Level) :
    Balanced '{' '}' (unit.compact.code.map (·.2)) := by
  have rendered : unit.render.Reads (Slot.template.flatMap fun slot => (unit.get slot).braces) :=
    Text.Reads.render fun slot => ⟨level.free slot, rfl⟩
  rw [balanced_iff_nesting (by decide), Text.map_snd_code, ← Text.nesting_braces,
    rendered.compact.braces]
  exact level.braces

/-- Taking structs out keeps a unit level, also when a later slot has a problem. -/
theorem extractFromSlots {className source : Text} {records : List Record} {slots : List Slot}
    (level : unit.Level) :
    (ScriptLoom.extractFromSlots className source records unit slots).2.Level := by
  induction slots generalizing records unit with
  | nil => exact level
  | cons slot slots ih =>
    unfold ScriptLoom.extractFromSlots
    split
    · exact level
    · next taken left extracted =>
      obtain ⟨free, replaces⟩ := Record.replaces_of_extractAll extracted (level.free slot)
      exact ih (level.fill free replaces)

end Level

end SourceUnit

/-! ### The unit of a script -/

namespace Composition

private theorem reads_entryPoint {body word : Text} (reads : body.Reads word) :
    (entryPoint body).Reads ('{' :: (word ++ ['}'])) := by
  have header : Text.Reads "\tpublic static void main(String[] args) \x7b" ['{'] :=
    Text.reads_of_isPlain (by decide)
  have footer : Text.Reads "\t\x7d" ['}'] := Text.reads_of_isPlain (by decide)
  have broken : ("\tpublic static void main(String[] args) \x7b\n" : Text) =
      "\tpublic static void main(String[] args) \x7b" ++ ['\n'] := rfl
  unfold entryPoint
  by_cases empty : body = []
  · subst empty
    rw [reads.eq_nil]
    exact header.append_lineFeed footer
  · have filled := header.append_lineFeed (reads.append_lineFeed footer)
    simpa only [empty, if_false, broken, List.append_assoc, List.cons_append, List.nil_append]
      using filled

private theorem reads_classHeader {className : Text}
    (named : ∀ c ∈ className, isIdentChar c = true) :
    Text.Reads ("public class " ++ className ++ " \x7b") ['{'] := by
  have opening : Text.Reads " \x7b" ['{'] := Text.reads_of_isPlain (by decide)
  have following := opening.plain_append
    (fun c member => (Text.isPlain_of_isIdentChar (named c member)).1)
    fun c member => (Text.isPlain_of_isIdentChar (named c member)).2
  rw [List.append_assoc]
  exact following.plain_append (by decide) (by decide)

/-- The braces in each slot of the unit of a script. -/
def slotBraces (script : Script) : Slot → Text
  | .classHeader => ['{']
  | .entryPoint => '{' :: (script.entryBody.braces ++ ['}'])
  | .userFunctions => script.functions.flatMap (·.body.braces)
  | .classFooter => ['}']
  | _ => []

private theorem reads_scriptPart {script : Script} {className : Text} (level : script.Level)
    (named : ∀ c ∈ className, isIdentChar c = true) (slot : Slot) :
    ((scriptPart script className).get slot).Reads (slotBraces script slot) := by
  cases slot with
  | catalogImports => exact .nil
  | userImports => exact level.imports
  | classHeader => exact reads_classHeader named
  | catalogDeclarations => exact .nil
  | userGlobals => exact level.globals.indent 1
  | entryPoint => exact reads_entryPoint ⟨level.entryBody, rfl⟩
  | userFunctions =>
    have joined : Text.Reads (Text.join "\n\n" (script.functions.map (·.body)))
        (script.functions.flatMap (·.body.braces)) := by
      rw [← List.flatMap_map]
      apply Text.Reads.join
      intro body member
      obtain ⟨f, listed, rfl⟩ := List.mem_map.mp member
      exact level.functions f listed
    exact joined.indent 1
  | builtinFunctions => exact .nil
  | classFooter =>
    have footer : Text.Reads "\x7d" ['}'] := Text.reads_of_isPlain (by decide)
    exact footer

/-- The functions of a script close what its statements leave open, inside the class and after
the entry point has closed its own brace. -/
theorem level_scriptPart {script : Script} {className : Text} (level : script.Level)
    (named : ∀ c ∈ className, isIdentChar c = true) : (scriptPart script className).Level := by
  have each := reads_scriptPart level named
  refine ⟨fun slot => (each slot).free, ?_⟩
  obtain ⟨drop, opens, closes⟩ := level.braces
  have word : (Slot.template.flatMap fun slot =>
      ((scriptPart script className).get slot).braces) =
        '{' :: '{' :: (script.entryBody.braces ++
          ('}' :: (script.functions.flatMap (·.body.braces) ++ ['}']))) := by
    simp only [(each _).braces]
    simp [Slot.template, slotBraces]
  have opens' : nesting '{' '}' 2 script.entryBody.braces = some (drop + 2) := nesting_add opens 2
  have closes' := nesting_add closes 1
  rw [word, nesting_cons_opening, nesting_cons_opening]
  refine nesting_append_eq_some.mpr ⟨drop + 2, opens', ?_⟩
  rw [nesting_cons_closing (by decide)]
  exact nesting_append_eq_some.mpr ⟨1, closes', rfl⟩

end Composition

/-! ### The library -/

/-- Whether the texts of a catalog keep a unit level: its functions and declarations are balanced,
and its import lines have no braces, quotes and comment openers. -/
structure Catalog.Level (catalog : Catalog) : Prop where
  functions : ∀ f ∈ catalog.functions, Balanced '{' '}' (f.body.code.map (·.2))
  declarations : ∀ d ∈ catalog.declarations, Balanced '{' '}' (d.text.code.map (·.2))
  imports : ∀ line ∈ catalog.imports, (∀ c ∈ line, isBraceOrQuote c = false) ∧
    ¬['/', '/'] <:+: line ∧ ¬['/', '*'] <:+: line

instance (catalog : Catalog) : Decidable catalog.Level :=
  decidable_of_iff ((∀ f ∈ catalog.functions, Balanced '{' '}' (f.body.code.map (·.2))) ∧
      (∀ d ∈ catalog.declarations, Balanced '{' '}' (d.text.code.map (·.2))) ∧
      ∀ line ∈ catalog.imports, (∀ c ∈ line, isBraceOrQuote c = false) ∧
        ¬['/', '/'] <:+: line ∧ ¬['/', '*'] <:+: line)
    ⟨fun holds => ⟨holds.1, holds.2.1, holds.2.2⟩,
      fun level => ⟨level.functions, level.declarations, level.imports⟩⟩

private theorem nesting_braces_of_balanced {t : Text}
    (balanced : Balanced '{' '}' (t.code.map (·.2))) :
    nesting '{' '}' 0 t.braces = some 0 := by
  rw [Text.map_snd_code, balanced_iff_nesting (by decide)] at balanced
  rw [Text.nesting_braces]
  exact balanced

namespace Catalog.Level

variable {catalog : Catalog} {skeleton : Text}

private theorem functionBodies (level : catalog.Level) :
    ∀ body ∈ Closure.functionBodies (Closure.needed catalog skeleton),
      ∃ word, body.Reads word ∧ nesting '{' '}' 0 word = some 0 := by
  intro body member
  obtain ⟨f, listed, rfl⟩ := List.mem_map.mp member
  obtain ⟨entry, emitted, isFunction⟩ := List.mem_filterMap.mp listed
  cases entry with
  | declaration d => cases isFunction
  | function g =>
    cases isFunction
    have named := Closure.function_mem_ofCatalog_iff.mp
      (Closure.mem_ofCatalog_of_mem_needed emitted)
    have inCatalog := List.mem_reverse.mp (List.mem_of_find?_eq_some named)
    exact ⟨f.body.braces, (Text.reads_withoutComments f.body).withoutBlankLines,
      nesting_braces_of_balanced (level.functions f inCatalog)⟩

private theorem declarationTexts (level : catalog.Level) :
    ∀ text ∈ Closure.declarationTexts (Closure.needed catalog skeleton),
      ∃ word, text.Reads word ∧ nesting '{' '}' 0 word = some 0 := by
  intro text member
  obtain ⟨d, listed, rfl⟩ := List.mem_map.mp member
  obtain ⟨entry, emitted, isDeclaration⟩ := List.mem_filterMap.mp listed
  cases entry with
  | function f => cases isDeclaration
  | declaration e =>
    cases isDeclaration
    have named := Closure.declaration_mem_ofCatalog_iff.mp
      (Closure.mem_ofCatalog_of_mem_needed emitted)
    have inCatalog := List.mem_reverse.mp (List.mem_of_find?_eq_some named)
    exact ⟨d.text.braces, (Text.reads_withoutComments d.text).asStatic,
      nesting_braces_of_balanced (level.declarations d inCatalog)⟩

private theorem usedImports (level : catalog.Level) (text : Text) :
    (Text.unlines (ScriptLoom.usedImports text catalog.imports)).Reads [] := by
  have silent : ∀ line ∈ ScriptLoom.usedImports text catalog.imports, Text.Silent line := by
    intro line member
    obtain ⟨plain, noLine, noBlock⟩ := level.imports line (List.mem_of_mem_filter member)
    exact Text.silent_of_unopened plain noLine noBlock
  have reads := Text.Reads.unlines fun line member => (silent line member).reads.free
  rwa [List.flatMap_eq_nil_iff.mpr fun line member => (silent line member).reads.braces] at reads

end Catalog.Level

private theorem Composition.level_withEntries {unit : SourceUnit} {catalog : Catalog}
    {skeleton : Text} (level : unit.Level) (library : catalog.Level) :
    (withEntries unit (Closure.needed catalog skeleton)).Level :=
  (level.foldl_append .builtinFunctions library.functionBodies).foldl_append .catalogDeclarations
    library.declarationTexts

private theorem Script.Level.compose {script : Script} {className : Text} {catalog : Catalog}
    (level : script.Level) (library : catalog.Level)
    (named : ∀ c ∈ className, isIdentChar c = true) :
    (script.compose className catalog).unit.Level := by
  have seeded := Composition.level_scriptPart level named
  unfold Script.compose
  apply (Composition.level_withEntries seeded library).fill
  · exact (library.usedImports _).free
  · intro depth final u v reached
    -- Nothing was put into the slot of the library imports before.
    rw [Composition.withEntries, SourceUnit.get_foldl_append _ _ (by decide),
      SourceUnit.get_foldl_append _ _ (by decide)] at reached
    have empty : (Composition.scriptPart script className).get .catalogImports = [] := rfl
    rw [empty, Text.Reads.nil.braces] at reached
    rw [(library.usedImports _).braces]
    exact reached

/-! ### The whole way -/

namespace Script

private theorem level_ofText {r : Text} {catalog : Catalog} {script : Script} (settled : r.Settled)
    (plain : r.PlainLines) (taken : ofText r catalog = .ok script) : script.Level := by
  obtain ⟨items, read, rfl⟩ := exists_of_ofText taken
  obtain ⟨sound, braces⟩ := read.braces_eq fun line member =>
    ⟨trimmedLine_of_mem_codeLines member, Text.plainLines_iff_codeLines.mp plain line member⟩
  apply level_ofItems catalog sound
  have whole : ((codeLines r).map (·.2)).flatMap Text.braces = r.braces :=
    flatMap_codeIn_codeLines isBrace_of_isBlank r
  rw [← braces, whole, Text.nesting_braces]
  exact settled.braces

end Script

namespace Program

/-- The steps behind a program. -/
theorem exists_of_ofScript {text : Text} {fileName : Path} {catalog : Catalog} {program : Program}
    (made : ofScript text fileName catalog = .ok program) :
    (problemsIn text catalog).isEmpty = true ∧
      ∃ r script, text.expandAll = .ok r ∧ Script.ofText r catalog = .ok script ∧
        program.source = (takeRecords (script.compose fileName.className catalog).unit
          fileName.className text).2.compact := by
  unfold ofScript at made
  dsimp only at made
  split at made
  · next quiet =>
    refine ⟨quiet, ?_⟩
    cases sound : ofSound text fileName.className catalog with
    | error problem =>
      rw [sound] at made
      cases made
    | ok result =>
      rw [sound] at made
      cases made
      unfold ofSound at sound
      obtain ⟨r, expanded, sound⟩ := exists_of_bind_eq_ok sound
      obtain ⟨script, taken, sound⟩ := exists_of_bind_eq_ok sound
      obtain ⟨records, -, sound⟩ := exists_of_bind_eq_ok sound
      cases sound
      exact ⟨r, script, expanded, taken, rfl⟩
  · cases made

/-- **A program has balanced braces.** Where the import lines of a script and the declarators of
its globals have no braces and quotes, its library is balanced and its class is named by an
identifier, every brace of the main unit outside literals and comments is closed, and none closes
more than was open. -/
theorem balanced_source {text : Text} {fileName : Path} {catalog : Catalog} {program : Program}
    (made : ofScript text fileName catalog = .ok program)
    (plain : ∀ line ∈ (Script.codeLines text).map (·.2), Script.PlainLine line)
    (library : catalog.Level) (named : ∀ c ∈ fileName.className, isIdentChar c = true) :
    Balanced '{' '}' (program.source.code.map (·.2)) := by
  obtain ⟨quiet, r, script, expanded, taken, source⟩ := exists_of_ofScript made
  obtain ⟨settled, plain'⟩ := (Text.plainLines_iff_codeLines.mpr plain).of_expandAll
    (Text.settled_of_problemsIn quiet) expanded
  have level := (Script.level_ofText settled plain' taken).compose library named
  rw [source]
  exact SourceUnit.Level.balanced_compact level.extractFromSlots

/-- A script with a struct, a global, a format call and a function whose header closes the loop
before it. -/
theorem balanced_source_of_crossing :
    let text : Text := "global int n = 1;\nstruct P \x7b int x; \x7d\n" ++
      "while (n > 0) \x7b // \x7d\nfunc void f() \x7d \x7b\nsay(\"%s\x7b\" % (n)); \x7d\n"
    let catalog : Catalog :=
      ⟨[⟨"say", "void say(String s) \x7b // \x7b\n\tlog.add(s); \x7d"⟩],
        [⟨"log", "List log = new List();"⟩], ["import java.util.List;"]⟩
    ∃ program, ofScript text "Demo.as" catalog = .ok program ∧
      Balanced '{' '}' (program.source.code.map (·.2)) := by
  intro text catalog
  cases made : ofScript text "Demo.as" catalog with
  | error problems =>
    have succeeds : (ofScript text "Demo.as" catalog).toBool = true := by decide +kernel
    rw [made] at succeeds
    cases succeeds
  | ok program =>
    exact ⟨program, rfl, balanced_source made (by decide +kernel) (by decide +kernel)
      (by decide +kernel)⟩

end Program

end ScriptLoom
