import ScriptLoom.Proofs.Decomposition
import ScriptLoom.Proofs.FormatExpansion

/-! # What the checks of a script are enough for

A script without problems is settled, and stays so through every expansion of a format call. Its
lines of code hold its braces in order, so from each line on the braces lead from some depth back
to zero (`Script.exists_nesting_of_reaches`), and the block of a function can be missing only where
no opening brace is left.
-/

namespace ScriptLoom

namespace Script

/-- From every line that is reached on, the braces of a settled text lead back to depth zero. -/
theorem exists_nesting_of_reaches {r : Text} (settled : r.Settled) {rest : List (Nat × Text)}
    (reached : Reaches (codeLines r) rest) :
    ∃ depth, nesting '{' '}' depth (codeOf (Text.unlines (rest.map (·.2))).pieces) = some 0 := by
  obtain ⟨before, whole⟩ := reached.isSuffix
  have free : ∀ line ∈ rest.map (·.2), Text.CommentFree line := by
    intro line member
    have inText : line ∈ (codeLines r).map (·.2) := by
      rw [← whole, List.map_append]
      exact List.mem_append_right _ member
    exact (trimmedLine_of_mem_codeLines inText).free
  have braces := settled.braces
  have lines := flatMap_codeIn_codeLines isBrace_of_isBlank r
  rw [← whole, List.map_append, List.flatMap_append,
    ← Text.codeIn_unlines isBrace_of_isBlank free] at lines
  rw [← nesting_filter_isBracket] at braces
  change nesting '{' '}' 0 (r.codeIn (isBracket '{' '}')) = some 0 at braces
  rw [← lines] at braces
  obtain ⟨depth, -, after⟩ := nesting_append_eq_some.mp braces
  refine ⟨depth, ?_⟩
  rw [← nesting_filter_isBracket]
  exact after

/-- A script is refused for the problem that its lines are refused for. -/
theorem ofText_eq_error_iff {r : Text} {catalog : Catalog} {problem : Diagnostic} :
    ofText r catalog = .error problem ↔ itemsOfLines (codeLines r) = .error problem := by
  unfold ofText
  cases itemsOfLines (codeLines r) with
  | error found => constructor <;> intro failed <;> cases failed <;> rfl
  | ok items => constructor <;> intro failed <;> cases failed

/-- **The checks are enough for the later passes.** In a script without problems every format call
is closed, at the start and after each expansion, so the expansion has a result. Taking that
result apart fails exactly at a function that is begun where no opening brace stands at or after
its line among the lines of code. -/
theorem expandAll_ofText_of_problemsIn_isEmpty (text : Text) (catalog : Catalog)
    (quiet : (problemsIn text catalog).isEmpty = true) :
    (∀ s ∈ text :: text.expansions.1, ∃ result, s.expandFirst = .ok result) ∧
      ∃ r, text.expandAll = .ok r ∧ ∀ problem, ofText r catalog = .error problem ↔
        ∃ n line rest, Reaches (codeLines r) ((n, line) :: rest) ∧
          line.startsWith Keyword.function = true ∧
          '{' ∉ (Text.unlines (line :: rest.map (·.2))).code.map (·.2) ∧
          problem = Problem.openBrace.onLine n := by
  have settled := Text.settled_of_problemsIn quiet
  refine ⟨?_, ?_⟩
  · intro s member
    rcases List.mem_cons.mp member with rfl | later
    · exact settled.exists_expandFirst
    · have kept := Text.forall_mem_expansions (motive := Text.Settled)
        (fun settled expanded => settled.of_expandFirst expanded) settled
      exact (kept s later).exists_expandFirst
  · obtain ⟨r, expanded, settled⟩ := settled.exists_settled_expandAll
    refine ⟨r, expanded, fun problem => ?_⟩
    rw [ofText_eq_error_iff, itemsOfLines_eq_error_iff]
    have same : ∀ n line rest, Reaches (codeLines r) ((n, line) :: rest) →
        ((Text.unlines (line :: rest.map (·.2))).cutBlock? = none ↔
          '{' ∉ (Text.unlines (line :: rest.map (·.2))).code.map (·.2)) := by
      intro n line rest reached
      obtain ⟨depth, braces⟩ := exists_nesting_of_reaches settled reached
      rw [Text.map_snd_code]
      exact Text.cutBlock?_eq_none_iff braces
    constructor
    · rintro ⟨n, line, rest, reached, starts, uncut, found⟩
      exact ⟨n, line, rest, reached, starts, (same n line rest reached).mp uncut, found⟩
    · rintro ⟨n, line, rest, reached, starts, unopened, found⟩
      exact ⟨n, line, rest, reached, starts, (same n line rest reached).mpr unopened, found⟩

/-- A call in an argument of another, then a function without a body: both calls are expanded, and
the function is what the script is refused for. -/
theorem expandAll_ofText_of_bodiless :
    (problemsIn "s = \"%s\" % (\"%s\" % (b));\nfunc void f()" .empty).isEmpty = true ∧
      ∃ r, Text.expandAll "s = \"%s\" % (\"%s\" % (b));\nfunc void f()" = .ok r ∧
        ofText r .empty = .error (Problem.openBrace.onLine 2) := by
  have quiet :
      (problemsIn "s = \"%s\" % (\"%s\" % (b));\nfunc void f()" .empty).isEmpty = true := by
    decide +kernel
  obtain ⟨-, r, expanded, failed⟩ := expandAll_ofText_of_problemsIn_isEmpty _ _ quiet
  refine ⟨quiet, r, expanded, (failed _).mpr ?_⟩
  have nested : Text.expandAll "s = \"%s\" % (\"%s\" % (b));\nfunc void f()" =
      .ok ("s = \"%s\"" ++ FormatCall.substitution ("\"%s\"" ++ FormatCall.substitution "b") ++
        ";\nfunc void f()") := by
    decide +kernel
  obtain rfl := Except.ok.inj (nested.symm.trans expanded)
  have lines : codeLines ("s = \"%s\"" ++ FormatCall.substitution ("\"%s\"" ++
      FormatCall.substitution "b") ++ ";\nfunc void f()") =
        [(1, "s = \"%s\"" ++ FormatCall.substitution ("\"%s\"" ++ FormatCall.substitution "b") ++
          ";"), (2, "func void f()")] := by
    decide +kernel
  rw [lines]
  refine ⟨2, "func void f()", [], .step .start (.statement ?_ ?_ ?_), ?_, ?_, rfl⟩ <;>
    decide +kernel

end Script

end ScriptLoom
