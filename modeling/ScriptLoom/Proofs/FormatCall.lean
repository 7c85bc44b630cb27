import Mathlib.Algebra.Ring.Nat
import ScriptLoom.Proofs.Lines

/-! # The anatomy of a format call

What the search for a format call finds and what one expansion does, on pieces: the literal, the
gaps around the percent sign, the arguments between their commas and the rest. The number of
percent signs before a parenthesis falls by one with every expansion
(`Text.percentMarks_of_expandFirst`), so the bound on the number of expansions never cuts them
short: `Text.expandAll_eq` unfolds the whole expansion into its first step and the rest.
-/

namespace ScriptLoom

/-- The code characters that are taken off, and the pieces after them. -/
theorem eq_takeCode (p : Char → Bool) (ps : List Piece) :
    ps = (takeCode p ps).1.map .code ++ (takeCode p ps).2 ∧
      ∀ c ∈ (takeCode p ps).1, p c = true := by
  fun_induction takeCode p ps with
  | case1 c ps holds taken ih =>
    refine ⟨congrArg (_ :: ·) ih.1, ?_⟩
    intro d member
    rcases List.mem_cons.mp member with rfl | later
    · exact holds
    · exact ih.2 d later
  | case2 => exact ⟨rfl, by simp⟩
  | case3 => exact ⟨rfl, by simp⟩

namespace FormatCall

/-! ### Finding a call -/

/-- The arguments behind a literal, with the gaps around the percent sign. -/
theorem exists_of_argumentsAfter? {ps inside : List Piece} {percent : Text}
    (found : argumentsAfter? ps = some (percent, inside)) :
    ∃ gap gap' : Text, ps = gap.map .code ++ .code '%' :: (gap'.map .code ++ .code '(' :: inside) ∧
      percent = gap ++ '%' :: gap' ∧ (∀ c ∈ gap, Text.isGap c = true) ∧
      ∀ c ∈ gap', Text.isGap c = true := by
  simp only [argumentsAfter?, percentAfter?, Option.bind_eq_bind, Option.bind_eq_some_iff] at found
  obtain ⟨⟨start, rest⟩, sign, opened⟩ := found
  have first := eq_takeCode Text.isGap ps
  have second := eq_takeCode Text.isGap rest
  generalize takeCode Text.isGap ps = firstTaken at *
  generalize takeCode Text.isGap rest = secondTaken at *
  split at sign
  · next gap tail =>
    cases sign
    split at opened
    · next gap' inside' =>
      cases opened
      refine ⟨gap, gap', ?_, by simp, first.2, second.2⟩
      rw [first.1, second.1]
    · cases opened
  · cases sign

/-- The place of the first call among pieces. -/
theorem exists_of_find? {ps : List Piece} {call : FormatCall} (found : find? ps = some call) :
    ∃ (before : List Piece) (body gap gap' : Text),
      ps = before ++ .region .string body true ::
        (gap.map .code ++ .code '%' :: (gap'.map .code ++ .code '(' :: call.rest)) ∧
      call.literal = spell before ++ body ∧ call.percent = gap ++ '%' :: gap' ∧
      (∀ c ∈ gap, Text.isGap c = true) ∧ ∀ c ∈ gap', Text.isGap c = true := by
  fun_induction find? ps generalizing call with
  | case1 => cases found
  | case2 body ps percent rest here =>
    cases found
    obtain ⟨gap, gap', whole, sign, isGap, isGap'⟩ := exists_of_argumentsAfter? here
    exact ⟨[], body, gap, gap', by rw [whole]; rfl, rfl, sign, isGap, isGap'⟩
  | case3 body ps _ ih =>
    obtain ⟨later, foundLater, rfl⟩ := Option.map_eq_some_iff.mp found
    obtain ⟨before, body', gap, gap', whole, literal, rest⟩ := ih foundLater
    refine ⟨.region .string body true :: before, body', gap, gap', ?_, ?_, rest⟩
    · exact congrArg (_ :: ·) whole
    · simp only [literal, spell_cons, Piece.text, List.append_assoc]
  | case4 p ps _ ih =>
    obtain ⟨later, foundLater, rfl⟩ := Option.map_eq_some_iff.mp found
    obtain ⟨before, body', gap, gap', whole, literal, rest⟩ := ih foundLater
    refine ⟨p :: before, body', gap, gap', ?_, ?_, rest⟩
    · exact congrArg (_ :: ·) whole
    · simp only [literal, spell_cons, List.append_assoc]

/-! ### The arguments of a call -/

/-- The arguments with commas between them are what stands between the parentheses. -/
theorem intercalate_argumentPieces (depth : Nat) (ps : List Piece) :
    List.intercalate [.code ','] (argumentPieces depth ps) = ps ∧ argumentPieces depth ps ≠ [] := by
  have push : ∀ (p : Piece) (parts : List (List Piece)) (ps : List Piece),
      List.intercalate [.code ','] parts = ps ∧ parts ≠ [] →
      List.intercalate [.code ','] (parts.modifyHead (p :: ·)) = p :: ps ∧
        parts.modifyHead (p :: ·) ≠ [] := by
    rintro p parts ps ⟨rfl, nonempty⟩
    cases parts with
    | nil => exact absurd rfl nonempty
    | cons part parts => cases parts <;> simp [List.intercalate_cons_cons]
  fun_induction argumentPieces depth ps with
  | case1 => exact ⟨List.intercalate_singleton, by simp⟩
  | case2 _ _ _ _ ih => exact push _ _ _ ih
  | case3 _ _ _ _ _ ih => exact push _ _ _ ih
  | case4 depth c ps _ _ comma ih =>
    obtain ⟨rfl, rfl⟩ := comma
    refine ⟨?_, by simp⟩
    rw [List.intercalate_cons_of_ne_nil ih.2, ih.1]
    rfl
  | case5 _ _ _ _ _ _ ih => exact push _ _ _ ih
  | case6 _ _ _ _ ih => exact push _ _ _ ih

/-- The text of a substitution before its argument. -/
def substitutionOpening : Text :=
  ".replaceFirst(\"%s\", java.util.regex.Matcher.quoteReplacement(String.valueOf("

/-- A substitution is its opening, the argument and three parentheses. -/
theorem substitution_eq (argument : Text) :
    substitution argument = substitutionOpening ++ (argument ++ [')', ')', ')']) :=
  List.append_assoc _ _ _

/-- A format call among pieces: the literal, the percent sign between gaps, and the parentheses
around the arguments. -/
structure Site (ps : List Piece) where
  before : List Piece
  body : Text
  gap : Text
  gap' : Text
  inside : List Piece
  after : List Piece
  isGap : ∀ c ∈ gap, Text.isGap c = true
  isGap' : ∀ c ∈ gap', Text.isGap c = true
  whole : ps = before ++ .region .string body true ::
    (gap.map .code ++ .code '%' :: (gap'.map .code ++ .code '(' :: (inside ++ .code ')' :: after)))
  closes : nesting '(' ')' 0 (codeOf inside) = some 0

end FormatCall

namespace Text

/-- One expansion keeps what stands around the first call and puts a substitution behind the
literal for each argument. -/
theorem exists_site_of_expandFirst {t next : Text} (expanded : t.expandFirst = .ok (some next)) :
    ∃ site : FormatCall.Site t.pieces,
      next = spell site.before ++ site.body ++
        (FormatCall.arguments site.inside).flatMap FormatCall.substitution ++ spell site.after := by
  unfold expandFirst at expanded
  split at expanded
  · cases expanded
  · next call found =>
    split at expanded
    · cases expanded
    · next inside after split =>
      obtain ⟨before, body, gap, gap', whole, literal, -, isGap, isGap'⟩ :=
        FormatCall.exists_of_find? found
      obtain ⟨rest, closes⟩ := eq_of_splitAtClose? split
      rw [rest] at whole
      refine ⟨⟨before, body, gap, gap', inside, after, isGap, isGap', whole, closes⟩, ?_⟩
      rw [← literal]
      exact (Option.some.inj (Except.ok.inj expanded)).symm

/-! ### Counting percent signs -/

section Count

variable {c : Char}

/-- Only percent signs are counted. -/
theorem percentMarks_cons_of_ne (other : c ≠ '%') (t : Text) :
    percentMarks (c :: t) = percentMarks t := by
  simp [percentMarks, other]

private theorem percentMarks_blanks_append {blanks : Text} (blank : ∀ c ∈ blanks, isBlank c = true)
    (t : Text) : percentMarks (blanks ++ t) = percentMarks t := by
  induction blanks with
  | nil => rfl
  | cons c blanks ih =>
    have other : c ≠ '%' := by
      rintro rfl
      exact absurd (blank _ (.head _)) (by decide)
    rw [List.cons_append, percentMarks_cons_of_ne other, ih fun d later => blank d (.tail _ later)]

/-- A character that is neither gap nor parenthesis keeps the signs before it from what follows. -/
theorem percentMarks_append_cons (noGap : isGap c = false) (other : c ≠ '(') (s t : Text) :
    percentMarks (s ++ c :: t) = percentMarks s + percentMarks (c :: t) := by
  induction s with
  | nil => simp [percentMarks]
  | cons d s ih =>
    have front : ((s ++ c :: t).dropWhile isGap).head? = some '(' ↔
        (s.dropWhile isGap).head? = some '(' := by
      rw [List.dropWhile_append]
      cases gone : s.dropWhile isGap <;> simp [noGap, other]
    simp only [List.cons_append, percentMarks, front, ih, Nat.add_assoc]

/-- A character that is neither gap nor percent sign keeps what follows from the signs before. -/
theorem percentMarks_concat_append (noGap : isGap c = false) (other : c ≠ '%') (s t : Text) :
    percentMarks (s ++ [c] ++ t) = percentMarks (s ++ [c]) + percentMarks t := by
  induction s with
  | nil => simp [percentMarks, other]
  | cons d s ih =>
    have front : ((s ++ [c] ++ t).dropWhile isGap).head? = ((s ++ [c]).dropWhile isGap).head? := by
      rw [List.dropWhile_append]
      cases gone : s.dropWhile isGap <;> simp_all [List.dropWhile_append]
    simp only [List.cons_append, percentMarks, front, ih, Nat.add_assoc]

private theorem percentMarks_append_blanks (t : Text) {blanks : Text}
    (blank : ∀ c ∈ blanks, isBlank c = true) : percentMarks (t ++ blanks) = percentMarks t := by
  induction t with
  | nil => simpa [percentMarks] using percentMarks_blanks_append blank []
  | cons c t ih =>
    have front : ((t ++ blanks).dropWhile isGap).head? = some '(' ↔
        (t.dropWhile isGap).head? = some '(' := by
      rw [List.dropWhile_append]
      cases gone : t.dropWhile isGap with
      | cons d rest => simp
      | nil =>
        have unseen : (blanks.dropWhile isGap).head? ≠ some '(' := by
          intro opens
          obtain ⟨rest, whole⟩ := List.head?_eq_some_iff.mp opens
          have member : '(' ∈ blanks :=
            (List.dropWhile_suffix isGap).subset (whole ▸ List.mem_cons_self)
          exact absurd (blank _ member) (by decide)
        simpa using unseen
    simp only [List.cons_append, percentMarks, front, ih]

/-- Blanks around a text change no count of percent signs. -/
@[simp]
theorem percentMarks_trim (t : Text) : percentMarks t.trim = percentMarks t := by
  obtain ⟨before, after, whole, blank, blank'⟩ := exists_eq_append_trim t
  rw [congrArg percentMarks whole, percentMarks_blanks_append blank,
    percentMarks_append_blanks _ blank']

end Count

/-- A percent sign before its parenthesis counts once. -/
theorem percentMarks_sign {gap gap' : Text} (gaps : ∀ c ∈ gap, isGap c = true)
    (gaps' : ∀ c ∈ gap', isGap c = true) (t : Text) :
    percentMarks (gap ++ '%' :: (gap' ++ '(' :: t)) = percentMarks t + 1 := by
  have opens : ((gap' ++ '(' :: t).dropWhile isGap).head? = some '(' := by
    rw [List.dropWhile_append_of_pos gaps']
    rfl
  rw [percentMarks_blanks_append fun c member => isBlank_of_isGap (gaps c member), percentMarks,
    if_pos ⟨rfl, opens⟩,
    percentMarks_blanks_append fun c member => isBlank_of_isGap (gaps' c member),
    percentMarks_cons_of_ne (by decide), Nat.add_comm]

/-- The signs of an argument are those of its substitution. -/
theorem percentMarks_substitution_append (argument t : Text) :
    percentMarks (FormatCall.substitution argument ++ t) =
      percentMarks argument + percentMarks t := by
  have opening : ∀ u : Text,
      percentMarks (FormatCall.substitutionOpening ++ u) = percentMarks u := by
    intro u
    have split : FormatCall.substitutionOpening =
        FormatCall.substitutionOpening.dropLast ++ ['('] := by decide
    rw [split, percentMarks_concat_append (by decide) (by decide), ← split]
    have none : percentMarks FormatCall.substitutionOpening = 0 := by decide
    omega
  rw [FormatCall.substitution_eq, List.append_assoc, opening, List.append_assoc,
    List.cons_append, percentMarks_append_cons (by decide) (by decide)]
  simp [percentMarks]

private theorem percentMarks_flatMap_substitution_append (arguments : List Text) (t : Text) :
    percentMarks (arguments.flatMap FormatCall.substitution ++ t) =
      (arguments.map percentMarks).sum + percentMarks t := by
  induction arguments with
  | nil => simp
  | cons argument arguments ih =>
    rw [List.flatMap_cons, List.append_assoc, percentMarks_substitution_append, ih]
    simp [Nat.add_assoc]

private theorem percentMarks_spell_intercalate (parts : List (List Piece)) :
    percentMarks (spell (List.intercalate [.code ','] parts)) =
      (parts.map fun part => percentMarks (spell part)).sum := by
  induction parts with
  | nil => rfl
  | cons part parts ih =>
    cases parts with
    | nil => simp [List.intercalate_singleton]
    | cons next parts =>
      have comma : spell [.code ','] = [','] := rfl
      rw [List.intercalate_cons_cons, spell_append, spell_append, comma, List.append_assoc,
        List.singleton_append, percentMarks_append_cons (by decide) (by decide),
        percentMarks_cons_of_ne (by decide), ih]
      simp only [List.map_cons, List.sum_cons]

/-- The signs between the parentheses are those of the arguments. -/
theorem sum_percentMarks_arguments (inside : List Piece) :
    ((FormatCall.arguments inside).map percentMarks).sum = percentMarks (spell inside) := by
  have parts : ((FormatCall.argumentPieces 0 inside).map fun part => (spell part).trim).map
      percentMarks = (FormatCall.argumentPieces 0 inside).map fun part =>
        percentMarks (spell part) := by
    simp
  have whole := percentMarks_spell_intercalate (FormatCall.argumentPieces 0 inside)
  rw [(FormatCall.intercalate_argumentPieces 0 inside).1, ← parts] at whole
  rw [whole]
  unfold FormatCall.arguments
  dsimp only
  split
  · next empty => rw [empty]; rfl
  · rfl

/-- A closed string literal starts and ends with its quote. -/
theorem exists_of_wellFormed_string {body : Text}
    (formed : (Piece.region .string body true).WellFormed) :
    (∃ start, body = start ++ ['"']) ∧ ∃ rest, body = '"' :: rest := by
  cases formed with
  | @literal quote _ body _ opens grammar =>
    have double : quote = '"' := by
      unfold Region.ofQuote? at opens
      split at opens
      · assumption
      · split at opens <;> cases opens
    subst double
    obtain ⟨start, rfl⟩ := List.getLast?_eq_some_iff.mp grammar.getLast?_of_closed
    exact ⟨⟨'"' :: start, rfl⟩, _, rfl⟩

/-- The signs of a text with a call: those up to the literal, those after the parenthesis, and the
one of the call. -/
theorem percentMarks_of_call {t : Text} {before after : List Piece} {body gap gap' : Text}
    (gaps : ∀ c ∈ gap, isGap c = true) (gaps' : ∀ c ∈ gap', isGap c = true)
    (whole : t.pieces = before ++ .region .string body true ::
      (gap.map .code ++ .code '%' :: (gap'.map .code ++ .code '(' :: after))) :
    (∀ u, percentMarks (spell before ++ body ++ u) =
        percentMarks (spell before ++ body) + percentMarks u) ∧
      percentMarks t = percentMarks (spell before ++ body) + percentMarks (spell after) + 1 := by
  obtain ⟨⟨start, rfl⟩, -⟩ := exists_of_wellFormed_string
    ((scanned_pieces t).wellFormed (.region .string body true) (by simp [whole]))
  have parted : ∀ u, percentMarks (spell before ++ (start ++ ['"']) ++ u) =
      percentMarks (spell before ++ (start ++ ['"'])) + percentMarks u := by
    intro u
    rw [← List.append_assoc (spell before)]
    exact percentMarks_concat_append (by decide) (by decide) _ u
  have text := congrArg spell whole
  rw [spell_pieces] at text
  have spelled : t = spell before ++ (start ++ ['"']) ++
      (gap ++ '%' :: (gap' ++ '(' :: spell after)) := by
    simpa [Piece.text] using text
  refine ⟨parted, ?_⟩
  rw [congrArg percentMarks spelled, parted, percentMarks_sign gaps gaps', Nat.add_assoc]

/-- Every expansion removes one percent sign before a parenthesis. -/
theorem percentMarks_of_expandFirst {t next : Text} (expanded : t.expandFirst = .ok (some next)) :
    percentMarks t = percentMarks next + 1 := by
  obtain ⟨site, rfl⟩ := exists_site_of_expandFirst expanded
  obtain ⟨parted, marks⟩ := percentMarks_of_call site.isGap site.isGap' site.whole
  have rest : percentMarks (spell (site.inside ++ .code ')' :: site.after)) =
      percentMarks (spell site.inside) + percentMarks (spell site.after) := by
    rw [spell_append, spell_cons]
    exact (percentMarks_append_cons (by decide) (by decide) ..).trans
      (congrArg _ (percentMarks_cons_of_ne (by decide) _))
  rw [marks, rest, List.append_assoc _ _ (spell site.after), parted,
    percentMarks_flatMap_substitution_append, sum_percentMarks_arguments]

/-- A text without such percent signs has no format call. -/
theorem expandFirst_of_percentMarks {t : Text} (unmarked : percentMarks t = 0) :
    t.expandFirst = .ok none := by
  unfold expandFirst
  split
  · rfl
  · next call found =>
    obtain ⟨before, body, gap, gap', whole, -, -, gaps, gaps'⟩ := FormatCall.exists_of_find? found
    have marks := (percentMarks_of_call gaps gaps' whole).2
    omega

/-! ### The whole expansion -/

/-- A text is expanded by expanding its first call and then what that leaves. -/
theorem expandAll_eq (t : Text) :
    t.expandAll =
      match t.expandFirst with
      | .error problem => .error problem
      | .ok none => .ok t
      | .ok (some next) => next.expandAll := by
  unfold expandAll expansions
  cases marks : t.percentMarks with
  | zero => simp [expansionsWithin, expandFirst_of_percentMarks marks]
  | succ limit =>
    conv_lhs => unfold expansionsWithin
    cases expanded : t.expandFirst with
    | error problem => rfl
    | ok result =>
      cases result with
      | none => rfl
      | some next =>
        have left : next.percentMarks = limit := by
          have := percentMarks_of_expandFirst expanded
          omega
        subst left
        dsimp only
        cases expansionsWithin next.percentMarks next with
        | mk steps problem => cases problem <;> simp [List.getLast?_cons]

/-- A text without a call is expanded as it is. -/
theorem expandAll_of_done {t : Text} (done : t.expandFirst = .ok none) : t.expandAll = .ok t := by
  rw [expandAll_eq, done]

/-- A text with a call is expanded as its first expansion is. -/
theorem expandAll_of_step {t next : Text} (expanded : t.expandFirst = .ok (some next)) :
    t.expandAll = next.expandAll := by
  rw [expandAll_eq, expanded]

/-- What holds of a text without calls, and of a text if it holds after its first expansion, holds
of every text and its whole expansion. -/
theorem expandAll_induction {motive : (t r : Text) → t.expandAll = .ok r → Prop}
    (done : ∀ t (done : t.expandFirst = .ok none), motive t t (expandAll_of_done done))
    (step : ∀ t next r (expanded : t.expandFirst = .ok (some next)) (rest : next.expandAll = .ok r),
      motive next r rest → motive t r ((expandAll_of_step expanded).trans rest))
    {t r : Text} (expanded : t.expandAll = .ok r) : motive t r expanded := by
  induction marks : t.percentMarks using Nat.strong_induction_on generalizing t with
  | _ limit ih =>
    cases first : t.expandFirst with
    | error problem =>
      rw [expandAll_eq, first] at expanded
      cases expanded
    | ok result =>
      cases result with
      | none =>
        obtain rfl : t = r := Except.ok.inj ((expandAll_of_done first).symm.trans expanded)
        exact done t first
      | some next =>
        have fewer : next.percentMarks < limit := by
          have := percentMarks_of_expandFirst first
          omega
        have rest : next.expandAll = .ok r := (expandAll_of_step first).symm.trans expanded
        exact step t next r first rest (ih _ fewer rest rfl)

/-- Where a property that every expansion keeps rules out problems there is a result. -/
theorem exists_expandAll {motive : Text → Prop}
    (step : ∀ {s next : Text}, motive s → s.expandFirst = .ok (some next) → motive next)
    (sound : ∀ {s : Text}, motive s → ∃ result, s.expandFirst = .ok result)
    {t : Text} (start : motive t) : ∃ r, t.expandAll = .ok r := by
  induction marks : t.percentMarks using Nat.strong_induction_on generalizing t with
  | _ limit ih =>
    obtain ⟨result, expanded⟩ := sound start
    rw [expandAll_eq, expanded]
    cases result with
    | none => exact ⟨t, rfl⟩
    | some next =>
      have fewer : next.percentMarks < limit := by
        have := percentMarks_of_expandFirst expanded
        omega
      exact ih _ fewer (step start expanded) rfl

/-- What every expansion keeps holds of the result, and the result has no format call left. -/
theorem of_expandAll {motive : Text → Prop}
    (step : ∀ {s next : Text}, motive s → s.expandFirst = .ok (some next) → motive next)
    {t r : Text} (start : motive t) (expanded : t.expandAll = .ok r) :
    motive r ∧ r.expandFirst = .ok none := by
  induction expanded using expandAll_induction with
  | done t done => exact ⟨start, done⟩
  | step t next r expanded rest ih => exact ih (step start expanded)

/-- What one expansion keeps holds of all texts on the way. -/
theorem forall_mem_expansions {motive : Text → Prop}
    (step : ∀ {s next : Text}, motive s → s.expandFirst = .ok (some next) → motive next)
    {t : Text} (start : motive t) : ∀ s ∈ t.expansions.1, motive s := by
  unfold expansions
  generalize t.percentMarks = limit
  induction limit generalizing t with
  | zero => nofun
  | succ limit ih =>
    intro s member
    unfold expansionsWithin at member
    split at member
    · cases member
    · cases member
    · next next expanded =>
      rcases List.mem_cons.mp member with rfl | later
      · exact step start expanded
      · exact ih (step start expanded) s later

end Text

end ScriptLoom
