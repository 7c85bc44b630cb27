import ScriptLoom.Proofs.CallMarks
import ScriptLoom.Proofs.FormatExpansion

/-! # Expanding a text part by part

Where a text is cut so that no format call reaches over the cut, its first part is expanded without
a look at the second one, and the second one when the first has no call left
(`Text.expandAll_append`).
-/

namespace ScriptLoom

private theorem takeCode_map_code_append {p : Char → Bool} {s : Text} (taken : ∀ c ∈ s, p c = true)
    {c : Char} (stops : p c = false) (ps : List Piece) :
    takeCode p (s.map .code ++ .code c :: ps) = (s, .code c :: ps) := by
  induction s with
  | nil => simp [takeCode, stops]
  | cons d s ih =>
    rw [List.map_cons, List.cons_append, takeCode, if_pos (taken d List.mem_cons_self),
      ih fun e later => taken e (List.mem_cons_of_mem _ later)]

/-- A split at a closing bracket is found whatever follows. -/
theorem splitAtClose?_append {opening closing : Char} {depth : Nat} {ps inside after : List Piece}
    (split : splitAtClose? opening closing depth ps = some (inside, after)) (qs : List Piece) :
    splitAtClose? opening closing depth (ps ++ qs) = some (inside, after ++ qs) := by
  fun_induction splitAtClose? opening closing depth ps generalizing inside after with
  | case1 => cases split
  | case2 depth ps ih =>
    obtain ⟨rest, found, equal⟩ := Option.map_eq_some_iff.mp split
    cases equal
    simp [splitAtClose?, ih found]
  | case3 ps differs =>
    cases split
    simp [splitAtClose?, differs]
  | case4 ps depth differs ih =>
    obtain ⟨rest, found, equal⟩ := Option.map_eq_some_iff.mp split
    cases equal
    simp [splitAtClose?, differs, ih found]
  | case5 depth c ps differs differs' ih =>
    obtain ⟨rest, found, equal⟩ := Option.map_eq_some_iff.mp split
    cases equal
    simp [splitAtClose?, differs, differs', ih found]
  | case6 depth p ps noCode ih =>
    obtain ⟨rest, found, equal⟩ := Option.map_eq_some_iff.mp split
    cases equal
    cases p with
    | code c => exact absurd rfl (noCode c)
    | region kind body closed => simp [splitAtClose?, ih found]

namespace FormatCall

variable {ps qs : List Piece}

/-- The arguments of a call are found behind the gaps around its percent sign. -/
theorem argumentsAfter?_of_gaps {gap gap' : Text} (isGap : ∀ c ∈ gap, Text.isGap c = true)
    (isGap' : ∀ c ∈ gap', Text.isGap c = true) (inside : List Piece) :
    argumentsAfter? (gap.map .code ++ .code '%' :: (gap'.map .code ++ .code '(' :: inside)) =
      some (gap ++ '%' :: gap', inside) := by
  have noSign : Text.isGap '%' = false := by decide
  have noParenthesis : Text.isGap '(' = false := by decide
  simp [argumentsAfter?, percentAfter?, takeCode_map_code_append isGap noSign,
    takeCode_map_code_append isGap' noParenthesis]

section Append

variable (apart : StartsApart (marksOf qs))

include apart

/-- What follows a literal is the same with more text behind, unless that starts like the rest of
a call. -/
theorem argumentsAfter?_append :
    argumentsAfter? (ps ++ qs) =
      (argumentsAfter? ps).map fun found => (found.1, found.2 ++ qs) := by
  cases found : argumentsAfter? ps with
  | some arguments =>
    obtain ⟨percent, inside⟩ := arguments
    obtain ⟨gap, gap', rfl, rfl, isGap, isGap'⟩ := exists_of_argumentsAfter? found
    have whole := argumentsAfter?_of_gaps isGap isGap' (inside ++ qs)
    simpa using whole
  | none =>
    cases other : argumentsAfter? (ps ++ qs) with
    | none => rfl
    | some arguments =>
      obtain ⟨gap, gap', whole, -, isGap, isGap'⟩ := exists_of_argumentsAfter? other
      have signs : [.code '%', .code '('] <+: marksOf ps ++ marksOf qs := by
        rw [← marksOf_append, whole, marksOf_of_gaps isGap isGap']
        exact ⟨_, rfl⟩
      obtain ⟨here, opened⟩ := exists_argumentsAfter? ((signs_prefix_append apart).mp signs)
      rw [found] at opened
      cases opened

/-- The first call among pieces is that of their first part, if it has one. -/
theorem find?_append_of_some {call : FormatCall} (found : find? ps = some call) :
    find? (ps ++ qs) = some { call with rest := call.rest ++ qs } := by
  fun_induction find? ps generalizing call with
  | case1 => cases found
  | case2 body ps percent rest opened =>
    cases found
    simp [find?, argumentsAfter?_append apart, opened]
  | case3 body ps unopened ih =>
    obtain ⟨later, foundLater, rfl⟩ := Option.map_eq_some_iff.mp found
    simp [find?, argumentsAfter?_append apart, unopened, ih foundLater]
  | case4 p ps noLiteral ih =>
    obtain ⟨later, foundLater, rfl⟩ := Option.map_eq_some_iff.mp found
    rw [List.cons_append, find?, ih foundLater]
    · rfl
    · exact noLiteral

/-- Behind pieces without a call the search goes on. -/
theorem find?_append_of_none (none : find? ps = none) :
    find? (ps ++ qs) =
      (find? qs).map fun call => { call with literal := spell ps ++ call.literal } := by
  fun_induction find? ps with
  | case1 => simp
  | case2 => cases none
  | case3 body ps unopened ih =>
    have later := ih (Option.map_eq_none_iff.mp none)
    simp [find?, argumentsAfter?_append apart, unopened, later, Piece.text, Function.comp_def]
  | case4 p ps noLiteral ih =>
    have later := ih (Option.map_eq_none_iff.mp none)
    rw [List.cons_append, find?, later]
    · simp [Function.comp_def]
    · exact noLiteral

end Append

namespace Site

/-- A call with more pieces behind it. -/
def append (site : Site ps) (qs : List Piece) {all : List Piece} (joined : all = ps ++ qs) :
    Site all where
  __ := site
  after := site.after ++ qs
  whole := by simp [joined, site.whole]

/-- A call with more pieces before it. -/
def prepend (site : Site qs) (ps : List Piece) {all : List Piece} (joined : all = ps ++ qs) :
    Site all where
  __ := site
  before := ps ++ site.before
  whole := by simp [joined, site.whole]

variable {all : List Piece} (joined : all = ps ++ qs)

private theorem expanded_append (site : Site ps) :
    (site.append qs joined).expanded = site.expanded ++ qs := by
  simp [expanded, append]

private theorem expanded_prepend (site : Site qs) :
    (site.prepend ps joined).expanded = ps ++ site.expanded := by
  simp [expanded, prepend]

/-- An expansion leaves what stands before the literal, so no sign of a call comes to the front. -/
theorem startsApart_expanded (site : Site ps) (apart : StartsApart (marksOf ps)) :
    StartsApart (marksOf site.expanded) := by
  have front : StartsApart (marksOf site.before) := by
    rw [site.whole, marksOf_append] at apart
    exact apart.of_append
  rw [expanded, marksOf_append, marksOf_cons rfl]
  exact front.append startsApart_region

end Site

end FormatCall

namespace Text

/-- Whether the second text reads the same behind the first as alone, and cannot go on with a
format call of the first. -/
structure ReadApart (s t : Text) : Prop where
  joined : (s ++ t).pieces = s.pieces ++ t.pieces
  apart : StartsApart t.marks

/-- A text is cut between its pieces. -/
theorem readApart_spell {t : Text} {ps qs : List Piece} (cut : t.pieces = ps ++ qs)
    (apart : StartsApart (marksOf qs)) :
    t = spell ps ++ spell qs ∧ (spell ps).pieces = ps ∧ (spell qs).pieces = qs ∧
      ReadApart (spell ps) (spell qs) := by
  have scanned := scanned_pieces t
  rw [cut] at scanned
  have whole : t = spell ps ++ spell qs := by rw [← spell_append, ← cut, spell_pieces]
  have first := pieces_spell (scanned.part (List.prefix_append ps qs).isInfix)
  have second := pieces_spell (scanned.part (List.suffix_append ps qs).isInfix)
  refine ⟨whole, first, second, ?_, ?_⟩
  · rw [← whole, first, second, cut]
  · rwa [marks, second]

namespace ReadApart

variable {s t next : Text} (cut : ReadApart s t)

include cut

/-- Texts that are read apart lose their comments apart. -/
theorem withoutComments_append :
    (s ++ t).withoutComments = s.withoutComments ++ t.withoutComments := by
  simp [Text.withoutComments, cut.joined]

/-- A text that is expanded first is expanded whatever stands behind it. -/
theorem expandFirst_of_some (expanded : s.expandFirst = .ok (some next)) :
    (s ++ t).expandFirst = .ok (some (next ++ t)) := by
  unfold expandFirst at expanded ⊢
  cases found : FormatCall.find? s.pieces with
  | none =>
    rw [found] at expanded
    cases expanded
  | some call =>
    rw [found] at expanded
    rw [cut.joined, FormatCall.find?_append_of_some cut.apart found]
    cases split : splitAtClose? '(' ')' 0 call.rest with
    | none =>
      simp only [split] at expanded
      cases expanded
    | some parts =>
      simp only [split, Except.ok.injEq, Option.some.injEq] at expanded
      simp [splitAtClose?_append split, ← expanded]

/-- Behind a text without a call the expansion goes on with the next text. -/
theorem expandFirst_of_none (done : s.expandFirst = .ok none)
    (expanded : t.expandFirst = .ok (some next)) :
    (s ++ t).expandFirst = .ok (some (s ++ next)) := by
  have none : FormatCall.find? s.pieces = none :=
    FormatCall.find?_eq_none_iff.mpr (expandFirst_eq_ok_none_iff.mp done)
  unfold expandFirst at expanded ⊢
  rw [cut.joined, FormatCall.find?_append_of_none cut.apart none]
  cases found : FormatCall.find? t.pieces with
  | none =>
    rw [found] at expanded
    cases expanded
  | some call =>
    rw [found] at expanded
    cases split : splitAtClose? '(' ')' 0 call.rest with
    | none =>
      simp only [split] at expanded
      cases expanded
    | some parts =>
      simp only [split, Except.ok.injEq, Option.some.injEq] at expanded
      simp [split, ← expanded]

private theorem expandFirst_eq_none (done : s.expandFirst = .ok none)
    (done' : t.expandFirst = .ok none) :
    (s ++ t).expandFirst = .ok none := by
  rw [expandFirst_eq_ok_none_iff] at done done' ⊢
  rw [marks, cut.joined, marksOf_append]
  exact (hasCall_append cut.apart).not.mpr (not_or.mpr ⟨done, done'⟩)

/-- If a text and its front are closed and balanced on each line, so is the rest. -/
theorem lined_right (lined : s.Lined) (whole : (s ++ t).Lined) : t.Lined where
  closed p member := whole.closed p (by rw [cut.joined]; exact List.mem_append_right _ member)
  lines := by
    have lines := whole.lines
    rw [cut.joined, lineCode_append, lineNesting_append, lined.lines] at lines
    exact lines

private theorem of_expandFirst_left (lined : s.Lined) (whole : (s ++ t).Lined)
    (expanded : s.expandFirst = .ok (some next)) : ReadApart next t where
  joined := by
    obtain ⟨site, rfl⟩ := exists_site_of_expandFirst expanded
    rw [lined.pieces_expanded site rfl,
      whole.pieces_expanded (site.append t.pieces cut.joined) (by simp [FormatCall.Site.append]),
      FormatCall.Site.expanded_append]
  apart := cut.apart

private theorem of_expandFirst_right (whole : (s ++ t).Lined) (lined : t.Lined)
    (expanded : t.expandFirst = .ok (some next)) : ReadApart s next := by
  obtain ⟨site, equal⟩ := exists_site_of_expandFirst expanded
  have pieces := lined.pieces_expanded site equal
  constructor
  · rw [pieces, whole.pieces_expanded (site.prepend s.pieces cut.joined)
      (by simp [FormatCall.Site.prepend, equal]), FormatCall.Site.expanded_prepend]
  · rw [marks, pieces]
    exact site.startsApart_expanded cut.apart

private theorem expandAll_of_none {t' : Text} (whole : (s ++ t).Lined) (lined : t.Lined)
    (done : s.expandFirst = .ok none) (expanded : t.expandAll = .ok t') :
    (s ++ t).expandAll = .ok (s ++ t') ∧ ReadApart s t' := by
  induction expanded using expandAll_induction with
  | done t done' => exact ⟨expandAll_of_done (cut.expandFirst_eq_none done done'), cut⟩
  | step t next t' expanded rest ih =>
    have first := cut.expandFirst_of_none done expanded
    rw [expandAll_of_step first]
    exact ih (cut.of_expandFirst_right whole lined expanded) (whole.of_expandFirst first)
      (lined.of_expandFirst expanded)

/-- Two texts that are read apart are expanded each on its own. -/
theorem expandAll_append {s' t' : Text} (lined : s.Lined) (whole : (s ++ t).Lined)
    (expanded : s.expandAll = .ok s') (expanded' : t.expandAll = .ok t') :
    (s ++ t).expandAll = .ok (s' ++ t') ∧ ReadApart s' t' := by
  induction expanded using expandAll_induction with
  | done s done =>
    exact cut.expandAll_of_none whole (cut.lined_right lined whole) done expanded'
  | step s next s' expanded rest ih =>
    have first := cut.expandFirst_of_some expanded
    rw [expandAll_of_step first]
    exact ih (cut.of_expandFirst_left lined whole expanded) (lined.of_expandFirst expanded)
      (whole.of_expandFirst first)

end ReadApart

end Text

end ScriptLoom
