import ScriptLoom.Proofs.FunctionLines
import ScriptLoom.Proofs.LineComments
import ScriptLoom.Proofs.PlainLines

/-! # Format calls that are broken over lines

The gaps around the percent sign of a format call may hold line feeds, and its expansion leaves
them out: the lines that the call is broken over become one (`Text.LineJoin`), and the lines behind
it move up (`Text.Lined.count_of_expandFirst`). The lines that go away start with a sign of the
call, so no function starts on them, and the state of a script at its end stays the same
(`Text.Lined.stateAfter_of_expandFirst`).
-/

namespace ScriptLoom

namespace Text

/-! ### The lines of a broken call -/

/-- Whether a line goes on with a format call: its first visible character is the percent sign or
the opening parenthesis of one. -/
def ContinuesCall (line : Text) : Prop :=
  line.trim.head? = some '%' ∨ line.trim.head? = some '('

instance (line : Text) : Decidable line.ContinuesCall :=
  inferInstanceAs (Decidable (line.trim.head? = some '%' ∨ line.trim.head? = some '('))

/-- Whether no line of a text without its comments goes on with a format call. -/
def Unbroken (t : Text) : Prop :=
  ∀ line ∈ t.withoutComments.splitOn '\n', ¬ContinuesCall line

instance (t : Text) : Decidable t.Unbroken :=
  inferInstanceAs (Decidable (∀ line ∈ t.withoutComments.splitOn '\n', ¬ContinuesCall line))

private theorem head?_trim_blanks_append {blanks : Text} (blank : ∀ c ∈ blanks, isBlank c = true)
    {c : Char} (visible : isBlank c = false) (t : Text) :
    (trim (blanks ++ c :: t)).head? = some c := by
  obtain ⟨u, trimmed⟩ := exists_trim_append_cons visible blanks t
  rw [trimmed, trimStart, List.dropWhile_eq_nil_iff.mpr blank]
  rfl

private theorem tail_splitOn_append {s : Text} (inLine : '\n' ∉ s) (t : Text) :
    ((s ++ t).splitOn '\n').tail = (t.splitOn '\n').tail := by
  rw [splitOn_append, fullLines_of_not_mem inLine, List.nil_append, List.tail_cons]

private theorem subset_of_mem_splitOn {t line : Text}
    (member : line ∈ t.splitOn '\n') : line ⊆ t :=
  (isInfix_of_mem_splitOnP member).subset

/-- The lines that a gap before a sign of a call begins. -/
theorem exists_tail_splitOn_gap {gap : Text} (gaps : ∀ c ∈ gap, isGap c = true) {sign : Char}
    (isSign : sign = '%' ∨ sign = '(') (t : Text) :
    ∃ own, ((gap ++ sign :: t).splitOn '\n').tail = own ++ (t.splitOn '\n').tail ∧
      (∀ line ∈ own, trim line = [] ∨ ContinuesCall line) ∧
      (own ≠ [] → ∃ line ∈ own, ContinuesCall line) := by
  have blank : ∀ line ∈ gap.splitOn '\n', ∀ c ∈ line, isBlank c = true :=
    fun line member c inLine => isBlank_of_isGap (gaps c (subset_of_mem_splitOn member inLine))
  have visible : isBlank sign = false ∧ '\n' ∉ [sign] := by
    rcases isSign with rfl | rfl <;> decide
  have rest := tail_splitOn_append visible.2 t
  rw [List.singleton_append] at rest
  by_cases feed : '\n' ∈ gap
  · have full : gap.fullLines ≠ [] := by
      rw [← List.length_pos_iff, length_fullLines]
      exact List.count_pos_iff.mpr feed
    have continues : ContinuesCall (gap.lastLine ++ (sign :: t).takeWhile (· ≠ '\n')) := by
      have last : gap.lastLine ∈ gap.splitOn '\n' := by
        rw [splitOn_eq_concat]
        exact List.mem_concat_self
      have front := takeWhile_append_of_not_mem visible.2 t
      have head := head?_trim_blanks_append (blank _ last) visible.1 (t.takeWhile (· ≠ '\n'))
      rw [List.singleton_append] at front
      rw [ContinuesCall, front, List.singleton_append, head]
      exact isSign.imp (congrArg some) (congrArg some)
    refine ⟨gap.fullLines.tail ++ [gap.lastLine ++ (sign :: t).takeWhile (· ≠ '\n')], ?_, ?_, ?_⟩
    · rw [splitOn_append, List.tail_append_of_ne_nil full, rest, List.append_assoc]
      rfl
    · intro line member
      rcases List.mem_append.mp member with earlier | last
      · refine .inl (trim_eq_nil_iff.mpr (blank line ?_))
        rw [splitOn_eq_concat]
        exact List.mem_append_left _ (List.mem_of_mem_tail earlier)
      · exact .inr (List.mem_singleton.mp last ▸ continues)
    · exact fun _ => ⟨_, List.mem_concat_self, continues⟩
  · refine ⟨[], ?_, by simp, fun nonempty => absurd rfl nonempty⟩
    rw [tail_splitOn_append feed, rest]
    rfl

/-- The lines of a text before and after the expansion of a call. -/
structure LineJoin (lines lines' : List Text) where
  earlier : List Text
  line : Text
  /-- The lines on which the call goes on. -/
  broken : List Text
  joined : Text
  later : List Text
  before : lines = earlier ++ (line :: (broken ++ later))
  after : lines' = earlier ++ joined :: later
  front : SameFront line joined
  signs : ∀ l ∈ broken, trim l = [] ∨ ContinuesCall l
  sign : broken ≠ [] → ∃ l ∈ broken, ContinuesCall l

/-- An expansion joins the lines that the call is broken over. -/
theorem Lined.exists_lineJoin {t next : Text} (lined : t.Lined)
    (expanded : t.expandFirst = .ok (some next)) :
    Nonempty (LineJoin (t.withoutComments.splitOn '\n') (next.withoutComments.splitOn '\n')) := by
  obtain ⟨s, quoted, gap, gap', inside, u, v, read, read', ⟨gaps, gaps'⟩, noFeed, noFeed',
    noFeed''⟩ := lined.exists_call expanded
  obtain ⟨own, first, signs, sign⟩ := exists_tail_splitOn_gap gaps (.inl rfl)
    (gap' ++ '(' :: (inside ++ ')' :: v))
  obtain ⟨own', second, signs', sign'⟩ := exists_tail_splitOn_gap gaps' (.inr rfl)
    (inside ++ ')' :: v)
  have literal : ∀ w : Text, (('"' :: (quoted ++ w)).splitOn '\n').tail = (w.splitOn '\n').tail :=
    fun w => tail_splitOn_append (s := '"' :: quoted) (by simpa using noFeed) w
  have closing : ((inside ++ ')' :: v).splitOn '\n').tail = (v.splitOn '\n').tail := by
    rw [List.append_cons]
    exact tail_splitOn_append (by simpa using noFeed') v
  have quote : ∀ w : Text, ('"' :: w).takeWhile (· ≠ '\n') = '"' :: w.takeWhile (· ≠ '\n') :=
    fun w => rfl
  exact ⟨{
    earlier := s.fullLines
    line := s.lastLine ++ ('"' :: (quoted ++ (gap ++ '%' :: (gap' ++ '(' ::
      (inside ++ ')' :: v))))).takeWhile (· ≠ '\n')
    broken := own ++ own'
    joined := s.lastLine ++ ('"' :: (quoted ++ (u ++ v))).takeWhile (· ≠ '\n')
    later := (v.splitOn '\n').tail
    before := by rw [read, splitOn_append, literal, first, second, closing, List.append_assoc]
    after := by rw [read', splitOn_append, literal, tail_splitOn_append noFeed'']
    front := by
      rw [quote, quote]
      exact .quote _ _ _
    signs := by
      intro l member
      exact (List.mem_append.mp member).elim (signs l) (signs' l)
    sign := by
      intro nonempty
      by_cases empty : own = []
      · obtain ⟨l, member, continues⟩ := sign' fun empty' => nonempty (by rw [empty, empty']; rfl)
        exact ⟨l, List.mem_append_right _ member, continues⟩
      · obtain ⟨l, member, continues⟩ := sign empty
        exact ⟨l, List.mem_append_left _ member, continues⟩ }⟩

/-! ### What an expansion does to the lines -/

private theorem SameFront.head?_trim {line line' : Text} (front : SameFront line line') :
    line.trim.head? = line'.trim.head? := by
  cases front with
  | same => rfl
  | quote s t u =>
    obtain ⟨t', trimmed⟩ := exists_trim_append_cons (c := '"') rfl s t
    obtain ⟨u', trimmed'⟩ := exists_trim_append_cons (c := '"') rfl s u
    rw [trimmed, trimmed']
    cases s.trimStart <;> rfl

/-- Lines with the same front start with the same keywords. -/
theorem SameFront.startsWith_trim {line line' keyword : Text} (front : SameFront line line')
    (unquoted : '"' ∉ keyword) : line.trim.startsWith keyword = line'.trim.startsWith keyword := by
  cases front with
  | same => rfl
  | quote s t u =>
    obtain ⟨t', trimmed⟩ := exists_trim_append_cons (c := '"') rfl s t
    obtain ⟨u', trimmed'⟩ := exists_trim_append_cons (c := '"') rfl s u
    rw [trimmed, trimmed', Script.startsWith_append_quote unquoted,
      Script.startsWith_append_quote unquoted]

private theorem ContinuesCall.not_startsWith {line : Text} (continues : line.ContinuesCall) :
    line.trim.startsWith Keyword.function = false := by
  rcases continues with sign | sign <;>
  · obtain ⟨rest, whole⟩ := List.head?_eq_some_iff.mp sign
    rw [whole]
    rfl

namespace LineJoin

variable {lines lines' : List Text} (join : LineJoin lines lines')

include join

private theorem length_eq : lines.length = lines'.length + join.broken.length := by
  have before := congrArg List.length join.before
  have after := congrArg List.length join.after
  simp only [List.length_append, List.length_cons] at before after
  omega

private theorem broken_eq_nil (unbroken : ∀ line ∈ lines, ¬ContinuesCall line) : join.broken =
    [] := by
  by_contra nonempty
  obtain ⟨line, member, continues⟩ := join.sign nonempty
  refine unbroken line ?_ continues
  rw [join.before]
  exact List.mem_append_right _ (List.mem_cons_of_mem _ (List.mem_append_left _ member))

/-- The lines before and after leave a script in the same state if they have the same braces. -/
theorem stateAfter_eq (braces : lines.flatMap Text.braces = lines'.flatMap Text.braces) :
    Script.stateAfter lines = Script.stateAfter lines' := by
  obtain ⟨earlier, line, broken, joined, later, rfl, rfl, front, signs, -⟩ := join
  have own : line.braces ++ broken.flatMap Text.braces = joined.braces := by
    rw [List.flatMap_append, List.flatMap_append] at braces
    have rest := List.append_cancel_left braces
    rw [List.flatMap_cons, List.flatMap_append, ← List.append_assoc, List.flatMap_cons] at rest
    exact List.append_cancel_right rest
  have none : ∀ l ∈ broken, Text.startsWith (Text.trim l) Keyword.function = false := by
    intro l member
    rcases signs l member with blank | continues
    · rw [blank]
      rfl
    · exact continues.not_startsWith
  have same : ∀ state, Script.enter state line = Script.enter state joined := by
    intro state
    rw [Script.enter, Script.enter, front.startsWith_trim (by decide)]
  have step : ∀ state, broken.foldl Script.advance (Script.advance state line) =
      Script.advance state joined := by
    intro state
    rw [Script.foldl_advance_of_not_starts none, Script.advance, Script.advance, same,
      Option.bind_assoc, ← own]
    simp only [Script.follow_append]
  rw [Script.stateAfter_append, Script.stateAfter_append, List.foldl_cons, List.foldl_append, step,
    List.foldl_cons]

end LineJoin

namespace Lined

variable {t next : Text} (lined : t.Lined) (expanded : t.expandFirst = .ok (some next))

include lined expanded

/-- An expansion changes no braces. -/
theorem braces_of_expandFirst : t.braces = next.braces := by
  obtain ⟨site, equal⟩ := exists_site_of_expandFirst expanded
  rw [braces, braces, codeIn, codeIn, lined.pieces_expanded site equal,
    site.filter_codeOf_expanded isBrace_of_isBlank (by decide) (by decide) (by decide) (by decide)]

/-- An expansion adds no line feeds, and takes some away only from a call that is broken over
lines. -/
theorem count_of_expandFirst :
    next.count '\n' ≤ t.count '\n' ∧ (t.Unbroken → next.count '\n' = t.count '\n') := by
  obtain ⟨join⟩ := lined.exists_lineJoin expanded
  have lengths := join.length_eq
  rw [length_splitOn_withoutComments, length_splitOn_withoutComments, length_splitOn,
    length_splitOn] at lengths
  refine ⟨by omega, fun unbroken => ?_⟩
  rw [join.broken_eq_nil unbroken, List.length_nil] at lengths
  omega

/-- After an expansion still no line goes on with a call. -/
theorem unbroken_of_expandFirst (unbroken : t.Unbroken) : next.Unbroken := by
  intro line' member continues
  obtain ⟨line, listed, front⟩ := lined.exists_sameFront_of_expandFirst expanded member
  apply unbroken line listed
  rwa [ContinuesCall, front.head?_trim]

/-- An expansion leaves the state behind all lines as it is. -/
theorem stateAfter_of_expandFirst :
    Script.stateAfter (t.withoutComments.splitOn '\n') =
      Script.stateAfter (next.withoutComments.splitOn '\n') := by
  obtain ⟨join⟩ := lined.exists_lineJoin expanded
  apply join.stateAfter_eq
  rw [(reads_withoutComments t).flatMap_splitOn, (reads_withoutComments next).flatMap_splitOn]
  exact lined.braces_of_expandFirst expanded

/-- A blank last line stays: a call ends with a parenthesis, so it is on another line. -/
theorem lastLine_of_expandFirst (blank : t.withoutComments.lastLine.trim = []) :
    next.withoutComments.lastLine.trim = [] := by
  obtain ⟨s, u, u', v, read, read', inLine⟩ := lined.exists_change expanded
  have split : t.withoutComments = (s ++ '"' :: (u ++ [')'])) ++ v := by
    rw [read]
    simp
  have split' : next.withoutComments = (s ++ '"' :: u') ++ v := by
    rw [read']
    simp
  by_cases feed : '\n' ∈ v
  · rw [split, lastLine_append_of_mem feed] at blank
    rwa [split', lastLine_append_of_mem feed]
  · have closing : t.withoutComments = (s ++ '"' :: u) ++ ')' :: v := by
      rw [read]
      simp
    rw [closing, lastLine_append_of_not_mem (by simpa using feed)] at blank
    have visible := trim_eq_nil_iff.mp blank ')' (by simp)
    exact absurd visible (by decide)

end Lined

end Text

end ScriptLoom
