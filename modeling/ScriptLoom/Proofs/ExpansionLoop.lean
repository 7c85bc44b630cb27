import ScriptLoom.Proofs.Boundaries
import ScriptLoom.Proofs.FormatCall

/-! # The loop of expansions

The first call of a text is expanded until there is none, or until one has no closing parenthesis.
The loop itself has no bound (`Text.Loops`). It ends on every text, since each expansion takes away
one percent sign before a parenthesis, counted over all bytes and not only over those of code
(`Text.byteMarks`); new literals, new comments and longer texts do not matter. So every text has one
run, the one that `Text.expansions` and `Text.expandAll` describe, and its result is a text that the
loop leaves as it is.
-/

namespace ScriptLoom

namespace Text

/-! ### Percent signs among bytes -/

/-- The number of percent signs among bytes that a parenthesis follows, with nothing but gaps
between them. -/
def byteMarks : List UInt8 → Nat
  | [] => 0
  | byte :: rest =>
    (if byte = '%'.toUInt8 ∧ (rest.dropWhile (byteIn isGap)).head? = some '('.toUInt8 then 1
      else 0) + byteMarks rest

private theorem byteMarks_append_of_not_mem {front : List UInt8} (absent : '%'.toUInt8 ∉ front)
    (rest : List UInt8) : byteMarks (front ++ rest) = byteMarks rest := by
  induction front with
  | nil => rfl
  | cons byte front ih =>
    have other : byte ≠ '%'.toUInt8 := by
      rintro rfl
      exact absent List.mem_cons_self
    have later : '%'.toUInt8 ∉ front := fun member => absent (List.mem_cons_of_mem _ member)
    rw [List.cons_append, byteMarks, if_neg (fun both => other both.1), ih later, Nat.zero_add]

private theorem utf8Size_of_isGap (c : Char) (gap : isGap c = true) : c.utf8Size = 1 := by
  simp only [isGap, Bool.or_eq_true, beq_iff_eq] at gap
  rcases gap with (((rfl | rfl) | rfl) | rfl) | rfl <;> rfl

private theorem dropWhile_bytes {p : Char → Bool} (narrow : ∀ c, p c = true → c.utf8Size = 1)
    (t : Text) :
    t.bytes.dropWhile (byteIn p) = bytes (t.dropWhile p) := by
  have whole : t.bytes.takeWhile (byteIn p) ++ t.bytes.dropWhile (byteIn p) =
      bytes (t.takeWhile p) ++ bytes (t.dropWhile p) := by
    rw [List.takeWhile_append_dropWhile, ← bytes_append, List.takeWhile_append_dropWhile]
  rw [takeWhile_bytes narrow] at whole
  exact List.append_cancel_left whole

/-- The percent signs before a parenthesis are the same among the bytes and the characters. -/
theorem byteMarks_bytes (t : Text) : byteMarks t.bytes = t.percentMarks := by
  induction t with
  | nil => rfl
  | cons c t ih =>
    have front : bytes (c :: t) = String.utf8EncodeChar c ++ bytes t := rfl
    rw [front]
    by_cases sign : c = '%'
    · subst sign
      have opens : ((bytes t).dropWhile (byteIn isGap)).head? = some '('.toUInt8 ↔
          (t.dropWhile isGap).head? = some '(' := by
        rw [dropWhile_bytes utf8Size_of_isGap, List.head?_eq_getElem?]
        exact getElem?_bytes_append (d := '(') rfl [] (t.dropWhile isGap)
      have encoded : String.utf8EncodeChar '%' = ['%'.toUInt8] :=
        String.utf8EncodeChar_eq_singleton rfl
      rw [encoded, List.singleton_append, byteMarks, percentMarks, ih]
      simp only [opens, true_and]
    · have absent : '%'.toUInt8 ∉ String.utf8EncodeChar c := fun member =>
        sign ((toUInt8_mem_utf8EncodeChar_iff (d := '%') rfl).mp member)
      rw [byteMarks_append_of_not_mem absent, ih, percentMarks_cons_of_ne sign]

/-! ### Runs of the loop -/

/-- A run of the loop from a text: the texts after each expansion, and the result. -/
inductive Loops : Text → List Text → Except Diagnostic Text → Prop
  | done {t : Text} (done : t.expandFirst = .ok none) : Loops t [] (.ok t)
  | fail {t : Text} {problem : Diagnostic} (failed : t.expandFirst = .error problem) :
      Loops t [] (.error problem)
  | step {t next : Text} {steps : List Text} {result : Except Diagnostic Text}
      (expanded : t.expandFirst = .ok (some next)) (rest : Loops next steps result) :
      Loops t (next :: steps) result

namespace Loops

variable {t : Text} {steps : List Text} {result : Except Diagnostic Text}

/-- A text has one run. -/
theorem unique (run : Loops t steps result) {steps' : List Text}
    {result' : Except Diagnostic Text} (run' : Loops t steps' result') :
    steps = steps' ∧ result = result' := by
  induction run generalizing steps' with
  | done done =>
    cases run' with
    | done => exact ⟨rfl, rfl⟩
    | fail failed => cases done.symm.trans failed
    | step expanded => cases done.symm.trans expanded
  | fail failed =>
    cases run' with
    | done done => cases failed.symm.trans done
    | fail failed' => cases failed.symm.trans failed'; exact ⟨rfl, rfl⟩
    | step expanded => cases failed.symm.trans expanded
  | step expanded rest ih =>
    cases run' with
    | done done => cases expanded.symm.trans done
    | fail failed => cases expanded.symm.trans failed
    | step expanded' rest' =>
      cases expanded.symm.trans expanded'
      obtain ⟨rfl, rfl⟩ := ih rest'
      exact ⟨rfl, rfl⟩

/-- Each expansion of a run takes away one percent sign before a parenthesis. -/
theorem length_add_percentMarks (run : Loops t steps result) :
    steps.length + percentMarks (steps.getLast?.getD t) = percentMarks t := by
  induction run with
  | done => simp
  | fail => simp
  | @step t next steps result expanded rest ih =>
    have fewer := percentMarks_of_expandFirst expanded
    rw [List.getLast?_cons, Option.getD_some, List.length_cons]
    omega

/-- The result of a run has no call left. -/
theorem expandFirst_of_ok {out : Text} (run : Loops t steps (.ok out)) :
    out.expandFirst = .ok none := by
  generalize ending : (Except.ok out : Except Diagnostic Text) = result at run
  induction run with
  | done done => cases ending; exact done
  | fail => cases ending
  | step _ _ ih => exact ih ending

end Loops

private theorem expansions_of_step {t next : Text} (expanded : t.expandFirst = .ok (some next)) :
    t.expansions = (next :: next.expansions.1, next.expansions.2) := by
  rw [expansions, percentMarks_of_expandFirst expanded, expansionsWithin, expanded]
  rfl

private theorem expansions_of_not_step {t : Text} (ends : ∀ next, t.expandFirst ≠ .ok (some next)) :
    t.expansions.1 = [] := by
  unfold expansions
  cases t.percentMarks with
  | zero => rfl
  | succ limit =>
    unfold expansionsWithin
    split
    · rfl
    · rfl
    · next next expanded => exact absurd expanded (ends next)

/-- Every text has a run. -/
theorem loops_expansions (t : Text) : Loops t t.expansions.1 t.expandAll := by
  induction marks : t.percentMarks using Nat.strong_induction_on generalizing t with
  | _ limit ih =>
    cases expanded : t.expandFirst with
    | error problem =>
      rw [expansions_of_not_step (by simp [expanded]), expandAll_eq, expanded]
      exact .fail expanded
    | ok result =>
      cases result with
      | none =>
        rw [expansions_of_not_step (by simp [expanded]), expandAll_of_done expanded]
        exact .done expanded
      | some next =>
        have fewer := percentMarks_of_expandFirst expanded
        rw [expansions_of_step expanded, expandAll_of_step expanded]
        exact .step expanded (ih next.percentMarks (by omega) next rfl)

/-- The loop ends on every text. An expansion takes away exactly one of the percent signs before a
parenthesis, so there are at most as many expansions as signs, and the result of the loop is a text
without calls that the loop returns unchanged. -/
theorem loops_iff_and_length_expansions_le (t : Text) :
    (∀ next, t.expandFirst = .ok (some next) → byteMarks next.bytes + 1 = byteMarks t.bytes) ∧
    (∀ steps result, Loops t steps result ↔ steps = t.expansions.1 ∧ result = t.expandAll) ∧
    t.expansions.1.length ≤ byteMarks t.bytes ∧
    ∀ out, t.expandAll = .ok out → out.expandFirst = .ok none ∧ out.expandAll = .ok out := by
  have run := loops_expansions t
  refine ⟨?_, ?_, ?_, ?_⟩
  · intro next expanded
    rw [byteMarks_bytes, byteMarks_bytes, percentMarks_of_expandFirst expanded]
  · intro steps result
    constructor
    · intro other
      exact other.unique run
    · rintro ⟨rfl, rfl⟩
      exact run
  · rw [byteMarks_bytes, ← run.length_add_percentMarks]
    exact Nat.le_add_right _ _
  · intro out expanded
    rw [expanded] at run
    have done := run.expandFirst_of_ok
    exact ⟨done, expandAll_of_done done⟩

end Text

end ScriptLoom
