import ScriptLoom.Composition

/-!
# Structs

`struct Name { T a; U b; }` at the start of a line of user code declares a record, which becomes
a unit of its own. Structs are taken out one after the other, each time the first one left, until
none is left.
-/

namespace ScriptLoom

/-- A struct that a script declares. -/
structure Record where
  name : Text
  fields : List Text
  deriving DecidableEq, Repr

/-- The source of a unit of its own. -/
structure NamedSource where
  name : Text
  source : Text
  deriving DecidableEq, Repr

namespace Record

/-- The lines of a script that declare a struct of a name. -/
def linesDeclaring (source name : Text) : List Nat :=
  source.withoutComments.numberedLines.filterMap fun (n, line) => do
    let rest ← Text.dropPrefix? Keyword.record line.trim
    let token ← rest.words.head?
    if token.dropEndWhile (· = '{') = name then some n else none

/-- The first line of a script that declares a struct of a name, zero if there is none. -/
def lineDeclaring (source name : Text) : Nat :=
  ((linesDeclaring source name).head?).getD 0

/-- The fields between the braces of a struct, one per semicolon. -/
def fieldsOf (body : Text) : List Text :=
  let joined := Text.join [' '] (body.withoutComments.lines.map Text.trim)
  ((joined.splitOn ';').map Text.trim).filter (· ≠ [])

/-- The unit of a struct, with the import lines of a pool that it needs. -/
def render (record : Record) (imports : List Text) : NamedSource :=
  let member (field : Text) : Text := "\tpublic " ++ field ++ ";\n"
  let body : Text :=
    "public class " ++ record.name ++ " \x7b\n" ++ record.fields.flatMap member ++ "\x7d\n"
  ⟨record.name, (usedImports body imports).flatMap (· ++ ['\n']) ++ body⟩

/-- The pieces after a word of code characters at the front of pieces. -/
def dropWord? : Text → List Piece → Option (List Piece)
  | [], ps => some ps
  | c :: word, p :: ps => if p = .code c then dropWord? word ps else none
  | _ :: _, [] => none

/-- The first struct keyword that starts a line: the text before it and the pieces after it.
`atStart` says whether only blanks stand before the pieces on their line. -/
def findKeyword? (atStart : Bool) : List Piece → Option (Text × List Piece)
  | [] => none
  | .code c :: ps =>
    if atStart && !Text.isBlank c then
      match dropWord? Keyword.record (.code c :: ps) with
      | some after => some ([], after)
      | none => (findKeyword? false ps).map fun found => (c :: found.1, found.2)
    else (findKeyword? (atStart || c = '\n') ps).map fun found => (c :: found.1, found.2)
  | .region _ body _ :: ps => (findKeyword? false ps).map fun found => (body ++ found.1, found.2)

/-- A struct taken out of a text. -/
structure Extraction where
  before : Text
  record : Record
  after : Text
  deriving DecidableEq, Repr

/-- The first struct of a text. Problems are reported on the line of the script that declares the
struct. -/
def extractFirst (text source : Text) : Except Diagnostic (Option Extraction) :=
  match findKeyword? true text.pieces with
  | none => .ok none
  | some (before, afterKeyword) =>
    let (name, afterName) := takeCode isIdentChar (takeCode Text.isGap afterKeyword).2
    let line := lineDeclaring source name
    if name = [] then .error (Problem.unnamedStruct.onLine line)
    else
      match (takeCode Text.isGap afterName).2 with
      | .code '{' :: afterBrace =>
        match splitAtClose? '{' '}' 0 afterBrace with
        | none => .error (Problem.openBrace.onLine line)
        | some (inside, after) =>
          .ok (some ⟨before, ⟨name, fieldsOf (spell inside)⟩, spell after⟩)
      | _ => .error ((Problem.structWithoutBody name).onLine line)

/-- A word at the front of pieces is what they spell first. -/
theorem spell_of_dropWord? {word : Text} {ps after : List Piece}
    (dropped : dropWord? word ps = some after) : spell ps = word ++ spell after := by
  fun_induction dropWord? word ps with
  | case1 => cases dropped; rfl
  | case2 c word ps ih => simp [Piece.text, ih dropped]
  | case3 => simp at dropped
  | case4 => simp at dropped

/-- A text with a struct keyword is what stands before it, the keyword and what follows. -/
theorem spell_of_findKeyword? {atStart : Bool} {ps after : List Piece} {before : Text}
    (found : findKeyword? atStart ps = some (before, after)) :
    spell ps = before ++ Keyword.record ++ spell after := by
  fun_induction findKeyword? atStart ps generalizing before after with
  | case1 => simp at found
  | case2 atStart c ps _ rest dropped =>
    cases found
    simpa using spell_of_dropWord? dropped
  | case3 atStart c ps _ _ ih =>
    obtain ⟨rest, inner, equal⟩ := Option.map_eq_some_iff.1 found
    cases equal
    simp [Piece.text, ih inner]
  | case4 atStart c ps _ ih =>
    obtain ⟨rest, inner, equal⟩ := Option.map_eq_some_iff.1 found
    cases equal
    simp [Piece.text, ih inner]
  | case5 atStart kind body closed ps ih =>
    obtain ⟨rest, inner, equal⟩ := Option.map_eq_some_iff.1 found
    cases equal
    simp [Piece.text, ih inner]

/-- Taking a struct out makes a text shorter. -/
theorem length_of_extractFirst {text source : Text} {found : Extraction}
    (extracted : extractFirst text source = .ok (some found)) :
    (found.before ++ found.after).length < text.length := by
  unfold extractFirst at extracted
  split at extracted
  · simp at extracted
  next before afterKeyword keyword =>
    have whole := spell_of_findKeyword? keyword
    rw [Text.spell_pieces] at whole
    have gap := spell_takeCode Text.isGap afterKeyword
    have name := spell_takeCode isIdentChar (takeCode Text.isGap afterKeyword).2
    simp only at extracted
    split at extracted
    · simp at extracted
    split at extracted
    next afterBrace opened =>
      split at extracted
      · simp at extracted
      next inside after closed =>
        have gap' := spell_takeCode Text.isGap
          (takeCode isIdentChar (takeCode Text.isGap afterKeyword).2).2
        have body := spell_of_splitAtClose? closed
        rw [opened] at gap'
        simp only [Except.ok.injEq, Option.some.injEq] at extracted
        subst extracted
        have lengths := congrArg List.length whole
        rw [gap, name, gap'] at lengths
        simp [body, Piece.text] at lengths ⊢
        omega
    · simp at extracted

/-- Takes all structs out of a text, after those of the texts before. A name that another struct
or the program has is refused. -/
def extractAll (className source : Text) (records : List Record) (text : Text) :
    Except Diagnostic (List Record × Text) :=
  match extracted : extractFirst text source with
  | .error problem => .error problem
  | .ok none => .ok (records, text)
  | .ok (some found) =>
    let name := found.record.name
    let lines := linesDeclaring source name
    if records.any (·.name = name) then
      .error ((Problem.repeatedStruct name).onLine ((lines[1]?.orElse fun _ => lines.head?).getD 0))
    else if name = className then .error ((Problem.reserved name).onLine (lines.head?.getD 0))
    else extractAll className source (records ++ [found.record]) (found.before ++ found.after)
termination_by text.length
decreasing_by exact length_of_extractFirst extracted

end Record

/-- The slots that hold user code, the only ones in which a struct can be declared. -/
def Slot.userCode : List Slot := [.entryPoint, .userFunctions]

/-- Takes the structs out of the given slots of a unit, one slot after the other. A slot with a
problem stays as it is, and so do those after it. -/
def extractFromSlots (className source : Text) (records : List Record) (unit : SourceUnit) :
    List Slot → Except Diagnostic (List Record) × SourceUnit
  | [] => (.ok records, unit)
  | slot :: slots =>
    match Record.extractAll className source records (unit.get slot) with
    | .error problem => (.error problem, unit)
    | .ok (records, text) => extractFromSlots className source records (unit.fill slot text) slots

/-- Takes the structs out of the user code of a unit. The script is searched for the lines to
report problems on. -/
def takeRecords (unit : SourceUnit) (className source : Text) :
    Except Diagnostic (List Record) × SourceUnit :=
  extractFromSlots className source [] unit Slot.userCode

end ScriptLoom
