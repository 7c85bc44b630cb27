import ScriptLoom.Proofs.ByteSearches
import ScriptLoom.Proofs.Overriding
import ScriptLoom.Proofs.ProblemLines

/-! # Assignments to reserved names

An assignment is an identifier with an assignment operator behind it, blanks apart
(`Verification.Assignment`). The check looks for the equals sign that ends the operator and goes
back from there. The character before the sign tells a compound operator from a comparison, so every
assignment of a reserved name is reported on the line of its operator unless the operator is a
shift, which looks like a comparison from behind, and if all literals are closed nothing else is
reported (`Verification.reserved_assignment_reported`).
-/

namespace ScriptLoom

/-! ### Ends of literals -/

private theorem Text.ofQuote?_of_isPlain {c : Char} (plain : isPlain c = true) :
    Region.ofQuote? c = none := by
  simp only [isPlain, Bool.and_eq_true, decide_eq_true_eq] at plain
  exact plain.1

/-- A literal that is closed ends with a quote. -/
theorem Piece.WellFormed.ofQuote?_getLast {kind : Region} {body : Text}
    (formed : (Piece.region kind body true).WellFormed) (literal : kind ≠ .comment) :
    ∃ c, body.getLast? = some c ∧ Region.ofQuote? c ≠ none := by
  cases formed with
  | line => exact absurd rfl literal
  | block => exact absurd rfl literal
  | @literal quote _ _ _ opens grammar =>
    refine ⟨quote, ?_, by simp [opens]⟩
    rw [List.getLast?_cons, grammar.getLast?_of_closed]
    rfl

/-- What stands behind the last quote of closed literals is code. -/
theorem exists_map_code_of_spell {ps : List Piece} {u v : Text}
    (formed : ∀ p ∈ ps, p.WellFormed) (free : ∀ p ∈ ps, p.isComment = false)
    (closed : ∀ p ∈ ps, p.isClosed = true) (spelled : spell ps = u ++ v)
    (unquoted : ∀ c ∈ v, Region.ofQuote? c = none) :
    ∃ front, ps = front ++ v.map .code ∧ spell front = u := by
  induction v using List.reverseRecOn generalizing ps with
  | nil => exact ⟨ps, by simp, by simpa using spelled⟩
  | append_singleton v c ih =>
    obtain ⟨earlier, last⟩ := List.forall_mem_append.mp unquoted
    rcases List.eq_nil_or_concat ps with rfl | ⟨ps, p, rfl⟩
    · simp at spelled
    · rw [List.concat_eq_append] at formed free closed spelled ⊢
      obtain ⟨formedRest, formed'⟩ := List.forall_mem_append.mp formed
      obtain ⟨freeRest, free'⟩ := List.forall_mem_append.mp free
      obtain ⟨closedRest, closed'⟩ := List.forall_mem_append.mp closed
      rw [spell_append, spell_cons, spell_nil, List.append_nil, ← List.append_assoc] at spelled
      cases p with
      | code d =>
        obtain ⟨rest, same⟩ := List.append_inj' spelled rfl
        cases same
        obtain ⟨front, rfl, place⟩ := ih formedRest freeRest closedRest rest earlier
        exact ⟨front, by simp, place⟩
      | region kind body isClosed =>
        obtain rfl : isClosed = true := closed' _ (List.mem_singleton_self _)
        have literal := Piece.ne_comment_of_isComment (free' _ (List.mem_singleton_self _))
        obtain ⟨quote, ends, opens⟩ :=
          (formed' _ (List.mem_singleton_self _)).ofQuote?_getLast literal
        have same := congrArg List.getLast? spelled
        rw [List.getLast?_concat, List.getLast?_append, Piece.text, ends] at same
        cases same
        exact absurd (last c (List.mem_singleton_self _)) opens

/-- No identifier character stands right before an identifier of a text without comments. -/
theorem Text.CommentFree.isIdentChar_before {t : Text} (free : t.CommentFree) {ident : Identifier}
    (member : ident ∈ t.identifiers) : ∀ c ∈ ident.before.head?, isIdentChar c = false := by
  obtain ⟨front, behind, whole, between⟩ := mem_identifiers.mp member
  have scanned := scanned_pieces t
  rw [whole] at scanned
  intro c first
  rw [between.before, List.head?_reverse] at first
  rcases List.eq_nil_or_concat front with rfl | ⟨front, p, rfl⟩
  · cases first
  · rw [List.concat_eq_append] at first between whole scanned
    rw [spell_append, spell_cons, spell_nil, List.append_nil] at first
    have other := between.starts p List.getLast?_concat
    cases p with
    | code d =>
      rw [Piece.text, List.getLast?_concat] at first
      cases first
      exact other
    | region kind body closed =>
      have literal :=
        Piece.ne_comment_of_isComment (free (.region kind body closed) (by simp [whole]))
      -- A literal that nothing closes runs to the end of the line, where no name starts.
      obtain rfl : closed = true := by
        obtain ⟨-, named, chars, -, -⟩ := between
        cases name : ident.name with
        | nil =>
          rw [name] at named
          cases named
        | cons d rest =>
          rw [name] at scanned chars
          have pair : Scanned [.region kind body closed, .code d] :=
            scanned.part ⟨front, rest.map .code ++ behind, by simp⟩
          have fits := (List.isChain_cons_cons.mp pair.fits).1
          by_contra opened
          have feed := fits.line (by cases kind <;> simp_all [Piece.endsWithLine])
          cases feed
          exact absurd (chars '\n' List.mem_cons_self) (by decide)
      obtain ⟨quote, ends, opens⟩ :=
        (scanned.wellFormed (.region kind body true) (by simp)).ofQuote?_getLast literal
      rw [Piece.text, List.getLast?_append, ends] at first
      cases first
      by_contra ident
      exact opens (ofQuote?_of_isPlain (isPlain_of_isIdentChar (by simpa using ident)).1)

/-! ### Reports -/

/-- The message about a reserved name is that of no problem of another kind. -/
theorem Problem.kind_of_message_eq {problem : Problem} {name : Text}
    (same : problem.message = (reserved name).message) : problem.kind = .collision := by
  have start : problem.message.take 3 = ['C', 'a', 'n'] := by
    rw [same]
    rfl
  cases problem with
  | reserved | repeatedStruct => rfl
  | unclosed region => cases region <;> exact absurd start (by decide)
  | strayClosing =>
    change ['U', 'n', 'e'] = _ at start
    exact absurd start (by decide)
  | wrongCase =>
    change ['C', 'a', 's'] = _ at start
    exact absurd start (by decide)
  | structWithoutBody =>
    change ['E', 'x', 'p'] = _ at start
    exact absurd start (by decide)
  | openBrace | openParenthesis | openArguments | bareFormat | unnamedStruct =>
    exact absurd start (by decide)

namespace Verification

open Text

private theorem exists_problem_of_mem_bareFormats {line : Nat} {ps : List Piece} {d : Diagnostic}
    (member : d ∈ bareFormats line ps) : ∃ problem : Problem, d = problem.onLine d.line := by
  fun_induction bareFormats line ps with
  | case1 => cases member
  | case2 line body ps after found ih =>
    rcases List.mem_append.mp member with own | later
    · refine ⟨.bareFormat, ?_⟩
      simp only [found] at own
      split at own
      · split at own
        · cases own
        · rw [List.mem_singleton.mp own]
          rfl
      · cases own
    · exact ih later
  | case3 line p ps _ ih => exact ih member

/-- The checks report problems. -/
theorem exists_problem_of_mem_problemsIn {text : Text} {catalog : Catalog} {d : Diagnostic}
    (member : d ∈ (problemsIn text catalog).toList) :
    ∃ problem : Problem, d = problem.onLine d.line := by
  have listed := Diagnostics.mem_of_mem_ofList member
  simp only [List.mem_append] at listed
  rcases listed with
    ((((((region | brace) | parenthesis) | format) | letterCase) | function) | global) | assignment
  · obtain ⟨span, -, rfl⟩ := List.mem_map.mp region
    exact ⟨_, rfl⟩
  · obtain ⟨place, -, rfl⟩ := List.mem_map.mp brace
    exact ⟨_, rfl⟩
  · obtain ⟨numbered, -, reported⟩ := List.mem_flatMap.mp parenthesis
    rcases List.mem_append.mp reported with opened | stray
    · split at opened
      · cases opened
      · exact ⟨.openParenthesis, by rw [List.mem_singleton.mp opened]; rfl⟩
    · split at stray
      · exact ⟨.strayClosing ')', by rw [List.mem_singleton.mp stray]; rfl⟩
      · cases stray
  · exact exists_problem_of_mem_bareFormats format
  · obtain ⟨pair, -, reported⟩ := List.mem_filterMap.mp letterCase
    dsimp only at reported
    split at reported
    · cases reported
    · obtain ⟨expected, -, rfl⟩ := Option.map_eq_some_iff.mp reported
      exact ⟨_, rfl⟩
  · obtain ⟨numbered, -, reported⟩ := List.mem_filterMap.mp function
    obtain ⟨name, -, reported⟩ := Option.bind_eq_some_iff.mp reported
    split at reported
    · cases reported
      exact ⟨_, rfl⟩
    · cases reported
  · obtain ⟨numbered, -, reported⟩ := List.mem_filterMap.mp global
    dsimp only at reported
    split at reported
    · split at reported
      · cases reported
        exact ⟨_, rfl⟩
      · cases reported
    · cases reported
  · obtain ⟨before, -, reported⟩ := List.mem_filterMap.mp assignment
    obtain ⟨name, -, reported⟩ := Option.bind_eq_some_iff.mp reported
    split at reported
    · cases reported
      exact ⟨_, rfl⟩
    · cases reported

/-- A reserved name that is assigned is reported as such, whatever else is found. -/
theorem mem_problemsIn_of_mem_assignmentProblems {text name : Text} {catalog : Catalog} {n : Nat}
    (free : text.CommentFree)
    (member : (Problem.reserved name).onLine n ∈ assignmentProblems text catalog) :
    (Problem.reserved name).onLine n ∈ (problemsIn text catalog).toList := by
  have held : (problemsIn text catalog).holds n (Problem.reserved name).message = true := by
    refine Diagnostics.holds_ofList.mpr ⟨(Problem.reserved name).onLine n, ?_, rfl, rfl⟩
    rw [free.withoutComments_eq]
    exact List.mem_append_right _ member
  rw [Diagnostics.holds, List.any_eq_true] at held
  obtain ⟨d, listed, same⟩ := held
  rw [Bool.and_eq_true, beq_iff_eq, beq_iff_eq] at same
  obtain ⟨problem, made⟩ := exists_problem_of_mem_problemsIn listed
  have message : problem.message = (Problem.reserved name).message := by
    rw [← same.2, made]
    rfl
  have kind : problem.kind = (Problem.reserved name).kind := Problem.kind_of_message_eq message
  have equal : d = (Problem.reserved name).onLine n := by
    rw [made, Problem.onLine, Problem.onLine, kind, message, same.1]
  rwa [← equal]

/-! ### Assignments -/

/-- The operators that assign, without those that shift. -/
def plainOperators : List Text :=
  ["=", "+=", "-=", "*=", "/=", "%=", "&=", "|=", "^="]

/-- The operators that shift and assign. -/
def shiftOperators : List Text :=
  ["<<=", ">>=", ">>>="]

/-- The operators that assign. -/
def assignmentOperators : List Text :=
  plainOperators ++ shiftOperators

/-- An assignment in a text: an identifier outside comments and literals and an operator behind it,
blanks apart. -/
structure Assignment (t : Text) where
  ident : Identifier
  gap : Text
  operator : Text
  rest : Text
  listed : ident ∈ t.identifiers
  blank : ∀ c ∈ gap, isBlank c = true
  known : operator ∈ assignmentOperators
  whole : t = ident.before.reverse ++ (ident.name ++ (gap ++ (operator ++ rest)))
  ends : rest.head? ≠ some '='

/-- Whether a name is that of the entry parameter or of a declaration of the library, in any letter
case. -/
def Reserves (catalog : Catalog) (name : Text) : Prop :=
  name.lower = reservedParameter ∨ ∃ d ∈ catalog.declarations, name.lower = d.name.lower

namespace Assignment

variable {t : Text}

/-- The text before the operator, nearest character first. -/
def before (a : Assignment t) : Text :=
  a.gap.reverse ++ (a.ident.name.reverse ++ a.ident.before)

/-- The line of the operator. -/
def line (a : Assignment t) : Nat :=
  t.lineNumberAt (a.ident.offset + size a.ident.name + size a.gap)

/-- The diagnostic about the name that is assigned. -/
def report (a : Assignment t) : Diagnostic :=
  (Problem.reserved a.ident.name).onLine a.line

private theorem whole' (a : Assignment t) : t = a.before.reverse ++ (a.operator ++ a.rest) := by
  have whole := a.whole
  simp only [before, List.reverse_append, List.reverse_reverse, List.append_assoc]
  exact whole

private theorem line_eq (a : Assignment t) : a.line = lineAfter a.before := by
  have place : a.ident.offset + size a.ident.name + size a.gap = size a.before.reverse := by
    simp only [before, size_reverse, size_append, Identifier.offset]
    omega
  have number := lineNumberAt_size a.before.reverse (a.operator ++ a.rest)
  rw [← a.whole', ← place] at number
  rw [line, number, lineAfter, lineAfter, List.count_reverse]

end Assignment

private theorem mem_plainOperators {operator : Text} :
    operator ∈ plainOperators ↔
      operator = ['='] ∨ ∃ c ∈ compoundSigns, operator = [c, '='] := by
  have signs : plainOperators = ['='] :: compoundSigns.map fun c => [c, '='] := by decide
  rw [signs, List.mem_cons, List.mem_map]
  simp only [eq_comm]

private theorem pieces_plainOperator_append {operator : Text} (plain : operator ∈ plainOperators)
    (rest : Text) : pieces (operator ++ rest) = operator.map .code ++ pieces rest := by
  have equals : ∀ rest : Text, pieces ('=' :: rest) = .code '=' :: pieces rest :=
    fun rest => pieces_code (by decide) (by simp)
  rcases mem_plainOperators.mp plain with rfl | ⟨c, sign, rfl⟩
  · exact equals rest
  · have unquoted : ∀ c ∈ compoundSigns, Region.ofQuote? c = none := by decide
    change pieces (c :: '=' :: rest) = _
    rw [pieces_code (unquoted c sign) (by simp), equals]
    rfl

private theorem targetName?_eq (before : Text) :
    targetName? before =
      if isName (lastRun before.reverse) then some (lastRun before.reverse) else none := by
  rw [targetName?, lastRun, List.reverse_reverse]
  cases ((before.dropWhile isBlank).takeWhile isIdentChar).reverse with
  | nil => rfl
  | cons c rest => cases digit : c.isDigit <;> simp [isName, digit]

private theorem targetName?_eq_some {before name : Text} :
    targetName? before = some name ↔ ∃ gap front, before = gap ++ (name.reverse ++ front) ∧
      (∀ c ∈ gap, isBlank c = true) ∧ (∀ c ∈ name, isIdentChar c = true) ∧
      isName name = true ∧ ∀ c ∈ front.head?, isIdentChar c = false := by
  rw [targetName?_eq]
  constructor
  · intro found
    obtain ⟨named, rfl⟩ : isName (lastRun before.reverse) = true ∧
        lastRun before.reverse = name := by
      simpa using found
    have visible : (lastRun before.reverse).reverse =
        (before.dropWhile isBlank).takeWhile isIdentChar := by
      rw [lastRun, List.reverse_reverse, List.reverse_reverse]
    refine ⟨before.takeWhile isBlank, (before.dropWhile isBlank).dropWhile isIdentChar, ?_,
      fun c => List.mem_takeWhile_imp, ?_, named, ?_⟩
    · rw [visible, List.takeWhile_append_dropWhile, List.takeWhile_append_dropWhile]
    · intro c member
      rw [← List.mem_reverse, visible] at member
      exact List.mem_takeWhile_imp member
    · intro c first
      have stops := List.head?_dropWhile_not isIdentChar (before.dropWhile isBlank)
      rw [first] at stops
      exact stops
  · rintro ⟨gap, front, rfl, blank, chars, named, apart⟩
    have chars' : ∀ c ∈ name.reverse, isIdentChar c = true := by simpa using chars
    have dropped : (name.reverse ++ front).dropWhile isBlank = name.reverse ++ front := by
      cases last : name.reverse with
      | nil =>
        rw [List.reverse_eq_nil_iff.mp last] at named
        cases named
      | cons c rest =>
        have visible := isBlank_of_isIdentChar (chars' c (by simp [last]))
        rw [List.cons_append, List.dropWhile_cons_of_neg (by simp [visible])]
    have stopped : front.takeWhile isIdentChar = [] := by
      cases front with
      | nil => rfl
      | cons c front => exact List.takeWhile_cons_of_neg (by simp [apart c rfl])
    have run : lastRun (gap ++ (name.reverse ++ front)).reverse = name := by
      rw [lastRun, List.reverse_reverse, List.dropWhile_append_of_pos blank, dropped,
        List.takeWhile_append_of_pos chars', stopped, List.append_nil, List.reverse_reverse]
    rw [run, if_pos named]

private theorem mem_assignmentProblems {t : Text} {catalog : Catalog} {d : Diagnostic} :
    d ∈ assignmentProblems t catalog ↔ ∃ before ∈ assignments [] t.pieces, ∃ name,
      targetName? before = some name ∧ Reserves catalog name ∧
        d = (Problem.reserved name).onLine (lineAfter before) := by
  have reserves : ∀ name : Text, (reservedParameter ::
      catalog.declarations.map (·.name.lower)).contains name.lower = true ↔
        Reserves catalog name := by
    intro name
    rw [List.contains_iff_mem, List.mem_cons, List.mem_map, Reserves]
    simp only [eq_comm]
  constructor
  · intro member
    obtain ⟨before, listed, reported⟩ := List.mem_filterMap.mp member
    obtain ⟨name, target, reported⟩ := Option.bind_eq_some_iff.mp reported
    obtain ⟨reserved, equal⟩ := Option.ite_none_right_eq_some.mp reported
    exact ⟨before, listed, name, target, (reserves name).mp reserved, (Option.some.inj equal).symm⟩
  · rintro ⟨before, listed, name, target, reserved, rfl⟩
    refine List.mem_filterMap.mpr ⟨before, listed, ?_⟩
    exact Option.bind_eq_some_iff.mpr ⟨name, target, if_pos ((reserves name).mpr reserved)⟩

/-- What stands right before an assignment operator is no part of another operator. -/
theorem Assignment.not_mem_signs {t : Text} (a : Assignment t) :
    ∀ c ∈ a.before.head?, c ∉ comparisonSigns ∧ c ∉ compoundSigns := by
  have signs : ∀ c ∈ comparisonSigns ++ compoundSigns,
      isBlank c = false ∧ isIdentChar c = false := by decide
  obtain ⟨front, behind, -, between⟩ := mem_identifiers.mp a.listed
  intro c first
  have kind : isBlank c = true ∨ isIdentChar c = true := by
    rw [before] at first
    cases gap : a.gap.reverse with
    | cons d rest =>
      rw [gap] at first
      cases first
      exact .inl (a.blank c (by rw [← List.mem_reverse, gap]; exact List.mem_cons_self))
    | nil =>
      cases name : a.ident.name.reverse with
      | cons d rest =>
        rw [gap, name] at first
        cases first
        exact .inr (between.chars c (by rw [← List.mem_reverse, name]; exact List.mem_cons_self))
      | nil =>
        have named := between.name
        rw [List.reverse_eq_nil_iff.mp name] at named
        cases named
  rw [← not_or, ← List.mem_append]
  intro sign
  rcases kind with blank | ident
  · exact absurd blank (by simp [(signs c sign).1])
  · exact absurd ident (by simp [(signs c sign).2])

/-- The search finds every assignment that does not shift. -/
theorem Assignment.mem_assignments {t : Text} (a : Assignment t)
    (plain : a.operator ∈ plainOperators) : a.before ∈ assignments [] t.pieces := by
  obtain ⟨front, behind, split, between⟩ := mem_identifiers.mp a.listed
  have spelled : spell behind = a.gap ++ (a.operator ++ a.rest) := by
    have whole := (spell_pieces t).trans a.whole
    rw [split, spell_append, spell_append, spell_map_code, between.before,
      List.reverse_reverse] at whole
    exact List.append_cancel_left (List.append_cancel_left whole)
  have read : behind = a.gap.map .code ++ (a.operator.map .code ++ pieces a.rest) := by
    have part : pieces (spell behind) = behind :=
      pieces_spell_part (by rw [split]; exact ⟨front ++ a.ident.name.map .code, [], by simp⟩)
    rw [← part, spelled, pieces_plain_append fun c member => isPlain_of_isBlank (a.blank c member),
      pieces_plainOperator_append plain]
  have single : (pieces a.rest).head? ≠ some (.code '=') := by
    intro head
    have formed := (scanned_pieces a.rest).wellFormed
    rw [← head?_spell_eq_some_iff formed (by decide) (by decide), spell_pieces] at head
    exact a.ends head
  have spelledFront : (spell (front ++ (a.ident.name.map .code ++ a.gap.map .code))).reverse =
      a.before := by
    rw [spell_append, spell_append, spell_map_code, spell_map_code, List.reverse_append,
      List.reverse_append, ← between.before, List.append_assoc, before]
  refine Verification.mem_assignments.mpr ?_
  rcases mem_plainOperators.mp plain with equals | ⟨c, sign, compound⟩
  · refine ⟨front ++ (a.ident.name.map .code ++ a.gap.map .code), pieces a.rest, ?_, single, ?_⟩
    · rw [split, read, equals]
      simp
    · rw [spelledFront, List.append_nil]
      exact beforeOperator?_eq_some.mpr (.inr ⟨rfl, a.not_mem_signs⟩)
  · refine ⟨front ++ (a.ident.name.map .code ++ a.gap.map .code) ++ [.code c], pieces a.rest, ?_,
      single, ?_⟩
    · rw [split, read, compound]
      simp
    · rw [spell_append, List.reverse_append, spelledFront, List.append_nil]
      exact beforeOperator?_eq_some.mpr (.inl ⟨c, sign, rfl⟩)

private theorem Assignment.targetName?_before {t : Text} (free : t.CommentFree) (a : Assignment t) :
    targetName? a.before = some a.ident.name := by
  obtain ⟨front, behind, -, between⟩ := mem_identifiers.mp a.listed
  exact targetName?_eq_some.mpr ⟨a.gap.reverse, a.ident.before, rfl, by simpa using a.blank,
    between.chars, between.name, free.isIdentChar_before a.listed⟩

/-- The operator is the equals sign with the sign before it, if that belongs to it. -/
theorem exists_sign_of_beforeOperator? {s before : Text}
    (found : beforeOperator? s.reverse = some before) :
    ∃ sign, sign ++ ['='] ∈ plainOperators ∧ s = before.reverse ++ sign := by
  rcases beforeOperator?_eq_some.mp found with ⟨c, sign, same⟩ | ⟨same, -⟩
  · refine ⟨[c], mem_plainOperators.mpr (.inr ⟨c, sign, rfl⟩), ?_⟩
    rw [← List.reverse_reverse s, same, List.reverse_cons]
  · refine ⟨[], mem_plainOperators.mpr (.inl rfl), ?_⟩
    rw [← List.reverse_reverse s, same, List.append_nil]

/-- A name of code that the characters around it do not continue is an identifier. -/
theorem mem_identifiers_of_code {t name behind : Text} {start rest : List Piece}
    (split : t.pieces = start ++ ((name ++ behind).map .code ++ rest)) (named : isName name = true)
    (chars : ∀ c ∈ name, isIdentChar c = true) (nonempty : behind ≠ [])
    (starts : ∀ c ∈ (spell start).getLast?, isIdentChar c = false)
    (ends : ∀ c ∈ behind, isIdentChar c = false) :
    ⟨(spell start).reverse, name⟩ ∈ t.identifiers := by
  refine mem_identifiers.mpr ⟨start, behind.map .code ++ rest, by rw [split]; simp, rfl, named,
    chars, ?_, ?_⟩
  · intro p last
    obtain ⟨earlier, rfl⟩ := List.getLast?_eq_some_iff.mp last
    cases p with
    | region kind body closed => rfl
    | code d =>
      refine starts d ?_
      rw [spell_append]
      exact List.getLast?_concat
  · intro p first
    rw [List.head?_append_of_ne_nil _ (by simpa using nonempty), List.head?_map] at first
    obtain ⟨c, head, rfl⟩ := Option.map_eq_some_iff.mp first
    exact ends c (List.mem_of_head? head)

/-- What the search finds is an assignment if all literals are closed. -/
theorem exists_assignment {t before name : Text} (free : t.CommentFree)
    (closed : ∀ p ∈ t.pieces, p.isClosed = true) (member : before ∈ assignments [] t.pieces)
    (target : targetName? before = some name) :
    ∃ a : Assignment t, a.operator ∉ shiftOperators ∧ a.ident.name = name ∧ a.before = before := by
  obtain ⟨ahead, rest, split, single, found⟩ := mem_assignments.mp member
  rw [List.append_nil] at found
  obtain ⟨sign, plain, spelled⟩ := exists_sign_of_beforeOperator? found
  obtain ⟨gap, front, rfl, blank, chars, named, apart⟩ := targetName?_eq_some.mp target
  have signs : ∀ operator ∈ plainOperators, operator ∉ shiftOperators ∧
      ∀ c ∈ operator, Region.ofQuote? c = none ∧ isIdentChar c = false := by decide
  obtain ⟨other, signs⟩ := signs _ plain
  have behind : ∀ c ∈ gap.reverse ++ (sign ++ ['=']),
      Region.ofQuote? c = none ∧ isIdentChar c = false := by
    intro c inside
    rcases List.mem_append.mp inside with inGap | inSign
    · have blank' := blank c (List.mem_reverse.mp inGap)
      refine ⟨ofQuote?_of_isPlain (isPlain_of_isBlank blank'), ?_⟩
      by_contra ident
      have visible := isBlank_of_isIdentChar (Bool.not_eq_false _ ▸ ident)
      rw [blank'] at visible
      cases visible
    · exact signs c inSign
  have unquoted : ∀ c ∈ name ++ (gap.reverse ++ sign), Region.ofQuote? c = none := by
    intro c inside
    rcases List.mem_append.mp inside with inName | inside
    · exact ofQuote?_of_isPlain (isPlain_of_isIdentChar (chars c inName)).1
    · exact (behind c (by rw [← List.append_assoc]; exact List.mem_append_left _ inside)).1
  -- The name and what follows it up to the operator are code, for no quote is among them.
  have inside : ∀ p ∈ ahead, p ∈ t.pieces := fun p listed => by
    rw [split]
    exact List.mem_append_left _ listed
  obtain ⟨start, rfl, place⟩ := exists_map_code_of_spell (u := front.reverse)
    (fun p listed => (scanned_pieces t).wellFormed p (inside p listed))
    (fun p listed => free p (inside p listed)) (fun p listed => closed p (inside p listed))
    (by rw [spelled]; simp) unquoted
  have listed : ⟨front, name⟩ ∈ t.identifiers := by
    have split' : t.pieces =
        start ++ ((name ++ (gap.reverse ++ (sign ++ ['=']))).map .code ++ rest) := by
      rw [split]
      simp
    have ident := mem_identifiers_of_code split' named chars (by simp)
      (by rwa [place, List.getLast?_reverse]) fun c member => (behind c member).2
    rwa [place, List.reverse_reverse] at ident
  have single' : (spell rest).head? ≠ some '=' := by
    have formed : ∀ p ∈ rest, p.WellFormed := fun p listed =>
      (scanned_pieces t).wellFormed p (by rw [split]; simp [listed])
    rwa [Ne, head?_spell_eq_some_iff formed (by decide) (by decide)]
  have whole : t = front.reverse ++ (name ++ (gap.reverse ++ ((sign ++ ['=']) ++ spell rest))) := by
    rw [← spell_pieces t, split, spell_append, spelled]
    simp [Piece.text]
  exact ⟨⟨⟨front, name⟩, gap.reverse, sign ++ ['='], spell rest, listed, by simpa using blank,
    List.mem_append_left _ plain, whole, single'⟩, other, rfl, by simp [Assignment.before]⟩

/-- **Assignments to reserved names.** In a text without comments each of them is reported on the
line of its operator, unless the operator is a shift. If all literals are closed, the search for
them reports nothing else. -/
theorem reserved_assignment_reported {t : Text} (free : t.CommentFree) (catalog : Catalog) :
    (∀ a : Assignment t, Reserves catalog a.ident.name → a.operator ∉ shiftOperators →
      a.report ∈ (problemsIn t catalog).toList) ∧
    (t.unclosed = [] → ∀ d, d ∈ assignmentProblems t catalog ↔ ∃ a : Assignment t,
      Reserves catalog a.ident.name ∧ a.operator ∉ shiftOperators ∧ d = a.report) := by
  have found : ∀ a : Assignment t, Reserves catalog a.ident.name → a.operator ∉ shiftOperators →
      a.report ∈ assignmentProblems t catalog := by
    intro a reserves plain
    have known := (List.mem_append.mp a.known).resolve_right plain
    refine mem_assignmentProblems.mpr ⟨a.before, a.mem_assignments known, a.ident.name,
      a.targetName?_before free, reserves, ?_⟩
    rw [Assignment.report, a.line_eq]
  refine ⟨fun a reserves plain =>
    mem_problemsIn_of_mem_assignmentProblems free (found a reserves plain), ?_⟩
  intro none d
  constructor
  · intro member
    have quiet : regionProblems t = [] := by
      rw [regionProblems, none]
      rfl
    have closed := isClosed_of_regionProblems quiet
    obtain ⟨before, listed, name, target, reserves, rfl⟩ := mem_assignmentProblems.mp member
    obtain ⟨a, plain, rfl, rfl⟩ := exists_assignment free closed listed target
    exact ⟨a, reserves, plain, by rw [Assignment.report, a.line_eq]⟩
  · rintro ⟨a, reserves, plain, rfl⟩
    exact found a reserves plain

/-- An assignment in capitals with its operator on the next line, behind one in a literal. -/
theorem reserved_assignment_reported_below :
    let t : Text := "s = \"args = 1\";\nARGS\n\t+= 2;\n"
    t.CommentFree ∧ ∃ a : Assignment t, a.operator = "+=" ∧ Reserves .empty a.ident.name ∧
      a.line = 3 ∧ a.report ∈ (problemsIn t .empty).toList := by
  intro t
  have free : t.CommentFree := by
    unfold CommentFree
    decide +kernel
  let a : Assignment t := ⟨⟨"\n;\"1 = sgra\" = s", "ARGS"⟩, "\n\t", "+=", " 2;\n",
    by decide +kernel, by decide +kernel, by decide +kernel, by decide +kernel, by decide +kernel⟩
  have reserves : Reserves .empty a.ident.name := .inl (by decide +kernel)
  have reported := (reserved_assignment_reported free .empty).1 a reserves (by decide +kernel)
  exact ⟨free, a, rfl, reserves, by decide +kernel, reported⟩

/-- An assignment that shifts is not reported. -/
theorem shift_assignment_unreported :
    let t : Text := "args <<= 1;"
    t.CommentFree ∧ (∃ a : Assignment t, a.operator = "<<=" ∧ Reserves .empty a.ident.name) ∧
      problemsIn t .empty = .empty := by
  intro t
  let a : Assignment t := ⟨⟨[], "args"⟩, " ", "<<=", " 1;",
    by decide +kernel, by decide +kernel, by decide +kernel, by decide +kernel, by decide +kernel⟩
  refine ⟨?_, ⟨a, rfl, .inl (by decide +kernel)⟩, by decide +kernel⟩
  unfold CommentFree
  decide +kernel

end Verification

end ScriptLoom
