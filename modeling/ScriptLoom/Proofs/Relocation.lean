import ScriptLoom.Location
import ScriptLoom.Proofs.EntryPoint
import ScriptLoom.Proofs.LineComments

/-! # Messages about the entry point

A message about a line of the entry point is moved to the script if exactly one line there gives
the code of that line, read alone with or without its comments. The script line that the code was
made from is among them as long as no comment goes over its ends (`Locator.mem_sourceLines_of_mem`),
so a message that is moved is then moved to that line, and it is moved unless another line gives
the same code. A comment over several lines is read differently on its lines alone, which is
enough to move a message to a line inside the comment.
-/

namespace ScriptLoom

/-- The line of the entry point on which a line of code stands. -/
theorem Program.LaidOut.exists_line {text source : Text} {front back : List Text}
    (laidOut : LaidOut source front ((Script.codeLines text).map (·.2)) back) {i k : Nat}
    {w : Text} (listed : (Script.codeLines text)[i]? = some (k, w)) :
    ∃ before after : Text, source = before ++ ((['\t', '\t'] ++ w) ++ after) ∧
      '\n' ∉ ['\t', '\t'] ++ w ∧ before.LineStarts ∧ after.LineEnds ∧
      Text.lineAfter before = front.length + 2 + i := by
  have code : ((Script.codeLines text).map (·.2))[i]? = some w := by
    rw [List.getElem?_map, listed]
    rfl
  have each : ∀ line ∈ (Script.codeLines text).map (·.2), Text.IsLine line :=
    fun line member => (Script.trimmedLine_of_mem_codeLines member).isLine
  generalize (Script.codeLines text).map (·.2) = ls at laidOut code each
  have inLine : ∀ line ∈ front ++ (Composition.entryLines ls ++ back), '\n' ∉ line := by
    intro line member
    rw [List.mem_append, List.mem_append] at member
    rcases member with inFront | inEntry | inBack
    · exact laidOut.inLine line (List.mem_append_left _ inFront)
    · exact (Composition.isLine_of_mem_entryLines each line inEntry).inLine
    · exact laidOut.inLine line (List.mem_append_right _ inBack)
  have entry : (Composition.entryLines ls)[i + 1]? = some (['\t', '\t'] ++ w) := by
    have bound : i < (ls.map (['\t', '\t'] ++ ·)).length := by
      rw [List.length_map]
      exact (List.getElem?_eq_some_iff.mp code).1
    rw [Composition.entryLines, List.getElem?_cons_succ, List.getElem?_append_left bound,
      List.getElem?_map, code]
    rfl
  have place : (source.splitOn '\n')[front.length + 1 + i]? = some (['\t', '\t'] ++ w) := by
    have bound := (List.getElem?_eq_some_iff.mp entry).1
    rw [laidOut.source, Text.splitOn_flatMap inLine, List.append_assoc,
      List.getElem?_append_right (by omega), List.append_assoc,
      List.getElem?_append_left (by omega)]
    rw [← entry]
    congr 1
    omega
  obtain ⟨before, after, split, count, starts, ends, noFeed⟩ :=
    Text.exists_of_getElem?_splitOn place
  refine ⟨before, after, split, noFeed, starts, ends, ?_⟩
  rw [Text.lineAfter, count]
  omega

namespace Script

private theorem mem_codeLines_iff {text w : Text} {k : Nat} :
    (k, w) ∈ codeLines text ↔ w ≠ [] ∧ ∃ i part, k = i + 1 ∧
      (text.withoutComments.splitOn '\n')[i]? = some part ∧ Text.trim part = w := by
  have numbered : (k, w) ∈ codeLines text ↔ w ≠ [] ∧
      ∃ line, (k, line) ∈ text.withoutComments.numberedLines ∧ line.trim = w := by
    simp only [codeLines, List.mem_filter, List.mem_map, decide_eq_true_eq, Prod.mk.injEq,
      Prod.exists]
    constructor
    · rintro ⟨⟨n, line, listed, rfl, rfl⟩, visible⟩
      exact ⟨visible, line, listed, rfl⟩
    · rintro ⟨visible, line, listed, rfl⟩
      exact ⟨⟨k, line, listed, rfl, rfl⟩, visible⟩
  rw [numbered]
  refine and_congr_right fun visible => ?_
  exact Text.exists_numberedLine_iff (fun empty => visible empty.symm)
    fun line => by rw [Text.trim_dropReturn]

private theorem trim_tabs_of_mem_codeLines {text w : Text} {k : Nat}
    (member : (k, w) ∈ codeLines text) :
    Text.trim (['\t', '\t'] ++ w) = w := by
  rw [Text.trim_tabs]
  exact (trimmedLine_of_mem_codeLines (List.mem_map_of_mem member)).trimmed

end Script

namespace Locator

/-- Whether a line of a script alone, with or without its comments, gives some code. -/
def Gives (line code : Text) : Prop :=
  line.trim = code ∨ line.withoutComments.trim = code

private theorem gives_dropReturn (line code : Text) :
    Gives (Text.dropReturn line) code ↔ Gives line code := by
  rw [Gives, Text.trim_dropReturn, Text.trim_withoutComments_dropReturn, Gives]

private theorem not_gives_nil {code : Text} (visible : code ≠ []) : ¬Gives [] code := by
  rintro (empty | empty)
  · exact visible empty.symm
  · rw [Text.withoutComments, Text.pieces_nil] at empty
    exact visible empty.symm

private theorem exists_numberedLine_gives_iff {t code : Text} (visible : code ≠ []) {n : Nat} :
    (∃ line, (n, line) ∈ t.numberedLines ∧ Gives line code) ↔
      ∃ i part, n = i + 1 ∧ (t.splitOn '\n')[i]? = some part ∧ Gives part code := by
  refine Text.exists_numberedLine_iff ?_ fun line => gives_dropReturn line code
  exact not_gives_nil visible

private theorem mem_sourceLines_iff {r : Locator} {line : Text} {n : Nat} :
    n ∈ r.sourceLines line ↔ line.trim ≠ [] ∧
      ∃ user, (n, user) ∈ r.userSource.numberedLines ∧ Gives user line.trim := by
  unfold sourceLines
  dsimp only
  split
  · next empty => simp [empty]
  · next visible =>
    rw [and_iff_right visible, List.mem_filterMap]
    constructor
    · rintro ⟨⟨number, user⟩, listed, found⟩
      dsimp only at found
      split at found
      · next gives =>
        cases found
        exact ⟨user, listed, by simpa [Gives] using gives⟩
      · cases found
    · rintro ⟨user, listed, gives⟩
      refine ⟨(n, user), listed, ?_⟩
      rw [if_pos (by simpa [Gives] using gives)]

private theorem mem_sourceLines_iff_lineAt {r : Locator} {line : Text} {i : Nat}
    (visible : line.trim ≠ []) :
    i + 1 ∈ r.sourceLines line ↔ Gives (r.userSource.lineAt (i + 1)) line.trim := by
  have numbered : ∀ user, (i + 1, user) ∈ r.userSource.numberedLines ↔
      r.userSource.lines[i]? = some user := by
    intro user
    rw [← List.mk_mem_zipIdx_iff_getElem?, Text.numberedLines, List.mem_map]
    constructor
    · rintro ⟨⟨line, j⟩, listed, same⟩
      cases same
      exact listed
    · intro listed
      exact ⟨(user, i), listed, rfl⟩
  rw [mem_sourceLines_iff, and_iff_right visible, Text.lineAt, Nat.add_sub_cancel]
  simp only [numbered]
  cases r.userSource.lines[i]? with
  | none => simp [not_gives_nil visible]
  | some user => simp

/-- A line of a script gives the code that was made from it, if no comment goes over its ends. -/
theorem mem_sourceLines_of_mem {r : Locator} {line w : Text} {k : Nat} (code : line.trim = w)
    (made : (k, w) ∈ Script.codeLines r.userSource) (within : r.userSource.CommentsWithin k) :
    k ∈ r.sourceLines line := by
  obtain ⟨visible, i, part, rfl, listed, rfl⟩ := Script.mem_codeLines_iff.mp made
  have inside : i < (r.userSource.splitOn '\n').length := by
    rw [← Text.length_splitOn_withoutComments]
    exact (List.getElem?_eq_some_iff.mp listed).1
  have own := Text.getElem?_splitOn_withoutComments (List.getElem?_eq_getElem inside) within
  rw [listed] at own
  obtain rfl := Option.some.inj own
  refine mem_sourceLines_iff.mpr ⟨code ▸ visible, (exists_numberedLine_gives_iff ?_).mpr ?_⟩
  · rwa [code]
  · exact ⟨i, _, rfl, List.getElem?_eq_getElem inside, .inr code.symm⟩

/-- A message about a line of the entry point is moved if one line of the script gives its code. -/
theorem locate_cases {text source : Text} {front back : List Text}
    (laidOut : Program.LaidOut source front ((Script.codeLines text).map (·.2)) back)
    {i k position : Nat} {w : Text} (listed : (Script.codeLines text)[i]? = some (k, w))
    (onLine : source.lineNumberAt position = front.length + 2 + i) (r : Locator)
    {m : CompilerMessage} (placed : m.position = some position) :
    (∃ only, r.sourceLines (['\t', '\t'] ++ w) = [only] ∧
      r.locate r.className source m = r.inScript only m) ∨
    (∀ only, r.sourceLines (['\t', '\t'] ++ w) ≠ [only]) ∧
      r.locate r.className source m =
        r.inUnit r.className (source.lineNumberAt position) (['\t', '\t'] ++ w) m := by
  obtain ⟨before, after, rfl, inLine, starts, ends, number⟩ := laidOut.exists_line listed
  have cut := Text.slice_lineRange inLine starts ends (onLine.trans number.symm)
  unfold locate
  rw [placed]
  dsimp only
  rw [cut, if_pos rfl]
  split
  · next only found => exact .inl ⟨only, found, rfl⟩
  · next several => exact .inr ⟨fun only found => several only found, rfl⟩

/-! ### The two ways through a script -/

/-- Whether an offset of a source is on the line of its entry point that was made from the code
on a line of a script. -/
def OnEntryLine (text source : Text) (position number : Nat) (code : Text) : Prop :=
  ∃ front back i, Program.LaidOut source front ((Script.codeLines text).map (·.2)) back ∧
    (Script.codeLines text)[i]? = some (number, code) ∧
    source.lineNumberAt position = front.length + 2 + i

/-- **A message that is moved from the entry point.** In a script of statements it is moved to the
script line that the code was made from exactly if that line gives the code read alone, which it
does as long as no comment goes over its ends. -/
theorem line_locate_iff {text : Text} {fileName : Path} {catalog : Catalog} {program : Program}
    (made : Program.ofScript text fileName catalog = .ok program)
    (only : Script.StatementsOnly text) :
    (∃ front back,
      Program.LaidOut program.source front ((Script.codeLines text).map (·.2)) back) ∧
    ∀ position k w, OnEntryLine text program.source position k w →
      ∀ (userFile : Text) (m : CompilerMessage), m.position = some position →
        let located :=
          locate ⟨userFile, text, program.className⟩ program.className program.source m
        located.diagnostic.kind = .compile →
          (located.diagnostic.line = k ↔
            (text.lineAt k).trim = w ∨ (text.lineAt k).withoutComments.trim = w) ∧
          (text.CommentsWithin k → located.diagnostic.line = k) := by
  refine ⟨Program.exists_laidOut made only, ?_⟩
  rintro position k w ⟨front, back, i, laidOut, listed, onLine⟩ userFile m placed located moved
  have member := List.mem_of_getElem? listed
  obtain ⟨visible, j, -, rfl, -⟩ := Script.mem_codeLines_iff.mp member
  have code := Script.trim_tabs_of_mem_codeLines member
  rcases locate_cases laidOut listed onLine ⟨userFile, text, program.className⟩ placed with
    ⟨n, found, result⟩ | ⟨-, result⟩
  · have line : located.diagnostic.line = n := congrArg (·.diagnostic.line) result
    have iff_gives : located.diagnostic.line = j + 1 ↔ Gives (text.lineAt (j + 1)) w := by
      have visible' : Text.trim (['\t', '\t'] ++ w) ≠ [] := by rwa [code]
      have alone := mem_sourceLines_iff_lineAt (r := ⟨userFile, text, program.className⟩) (i := j)
        visible'
      rw [found, List.mem_singleton, code] at alone
      rw [line, eq_comm, alone]
    refine ⟨iff_gives, fun within => ?_⟩
    have own := mem_sourceLines_of_mem (r := ⟨userFile, text, program.className⟩) code member within
    rw [found, List.mem_singleton] at own
    exact line.trans own.symm
  · have kind : located.diagnostic.kind = .relocation := congrArg (·.diagnostic.kind) result
    rw [kind] at moved
    cases moved

/-- A line behind a comment over several lines. -/
theorem line_locate_of_remark :
    let text : Text := "/*\nfoo(); // x\n*/ foo();\nbar(); // y"
    let program : Program := ⟨"A", "public class A \x7b\n" ++
      "\tpublic static void main(String[] args) \x7b\n\t\tfoo();\n\t\tbar();\n\t\x7d\n\x7d\n", []⟩
    let message : CompilerMessage := ⟨some 70, .error, "cannot find symbol"⟩
    Program.ofScript text "A.as" .empty = .ok program ∧ Script.StatementsOnly text ∧
      OnEntryLine text program.source 70 4 "bar();" ∧
      (locate ⟨"A.as", text, program.className⟩ program.className program.source
        message).diagnostic.line = 4 := by
  intro text program message
  have made : Program.ofScript text "A.as" .empty = .ok program := by decide +kernel
  have only : Script.StatementsOnly text := ⟨by decide +kernel, by decide +kernel⟩
  have onLine : OnEntryLine text program.source 70 4 "bar();" :=
    ⟨["public class A \x7b"], ["\x7d"], 1, ⟨by decide +kernel, by decide +kernel⟩,
      by decide +kernel, by decide +kernel⟩
  obtain ⟨-, about⟩ := line_locate_iff made only
  obtain ⟨gives, -⟩ := about 70 4 "bar();" onLine "A.as" message rfl (by decide +kernel)
  exact ⟨made, only, onLine, gives.mpr (.inr (by decide +kernel))⟩

/-- A message about code behind a comment is moved to a line inside it. -/
theorem locate_inside_comment :
    let text : Text := "/*\nfoo(); // x\n*/ foo();"
    let program : Program := ⟨"A", "public class A \x7b\n" ++
      "\tpublic static void main(String[] args) \x7b\n\t\tfoo();\n\t\x7d\n\x7d\n", []⟩
    let located := locate ⟨"A.auto", text, "A"⟩ "A" program.source
      ⟨some 62, .error, "cannot find symbol"⟩
    Program.ofScript text "A.auto" .empty = .ok program ∧ Script.StatementsOnly text ∧
      OnEntryLine text program.source 62 3 "foo();" ∧ located.file = "A.auto" ∧
      located.diagnostic.kind = .compile ∧ located.diagnostic.line = 2 := by
  intro text program located
  refine ⟨by decide +kernel, ⟨by decide +kernel, by decide +kernel⟩, ?_, by decide +kernel,
    by decide +kernel, by decide +kernel⟩
  exact ⟨["public class A \x7b"], ["\x7d"], 0, ⟨by decide +kernel, by decide +kernel⟩,
    by decide +kernel, by decide +kernel⟩

end Locator

end ScriptLoom
