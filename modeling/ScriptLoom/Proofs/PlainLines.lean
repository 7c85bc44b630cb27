import ScriptLoom.Proofs.FormatExpansion
import ScriptLoom.Proofs.ItemBraces

/-! # Import lines and declarators under expansion

An expansion of a format call changes the line of the call behind the quote of its literal only,
and starts no new line, so every line keeps the front of a line that was there
(`Text.Lined.exists_sameFront_of_expandFirst`). A line with a quote is no import, and its
declarator ends before the quote, so where all imports and declarators are free of braces and
quotes they are so after the expansion (`Text.PlainLines.of_expandFirst`).
-/

namespace ScriptLoom

namespace Script

/-- A keyword without a quote in it starts a line before its first quote. -/
theorem startsWith_append_quote {keyword : Text} (unquoted : '"' ∉ keyword) (s t : Text) :
    Text.startsWith (s ++ '"' :: t) keyword = s.startsWith keyword := by
  induction keyword generalizing s with
  | nil => simp [Text.startsWith]
  | cons c keyword ih =>
    have other := List.ne_of_not_mem_cons unquoted
    have rest := ih (List.not_mem_of_not_mem_cons unquoted)
    cases s with
    | nil => simp [Text.startsWith, List.isPrefixOf, other.symm]
    | cons d s =>
      have rest := rest s
      simp only [Text.startsWith] at rest
      simp [Text.startsWith, List.isPrefixOf, rest]

/-- What stands behind a quote does not matter for a plain line. -/
theorem PlainLine.change {s t : Text} (plain : PlainLine (s ++ '"' :: t)) (u : Text) :
    PlainLine (s ++ '"' :: u) := by
  refine ⟨?_, ?_⟩
  · intro starts
    rw [startsWith_append_quote (by decide),
      ← startsWith_append_quote (by decide) s t] at starts
    exact absurd (plain.imports starts '"' (by simp)) (by decide)
  · intro starts
    rw [startsWith_append_quote (by decide),
      ← startsWith_append_quote (by decide) s t] at starts
    have before := plain.declarator starts
    by_cases sign : '=' ∈ s
    · rw [takeWhile_append_of_mem sign] at before ⊢
      exact before
    · rw [takeWhile_append_of_not_mem sign] at before
      exact absurd (before '"' (by simp)) (by decide)

private theorem plainLine_nil : PlainLine [] :=
  ⟨fun _ => nofun, fun _ => nofun⟩

end Script

namespace Text

/-- The blanks at the start of a text end before a visible character. -/
theorem trimStart_append_cons {c : Char} (visible : isBlank c = false) (s t : Text) :
    trimStart (s ++ c :: t) = s.trimStart ++ c :: t := by
  rw [trimStart, List.dropWhile_append]
  split
  · next blank =>
    rw [trimStart, List.isEmpty_iff.mp blank, List.dropWhile_cons_of_neg (by simp [visible])]
    rfl
  · rfl

/-- Trimming a text with a visible character trims before the character at the start and behind it
at the end. -/
theorem trim_append_cons {c : Char} (visible : isBlank c = false) (s t : Text) :
    trim (s ++ c :: t) = s.trimStart ++ c :: t.trimEnd := by
  rw [trim, trimStart_append_cons visible]
  change List.rdropWhile isBlank _ = _ ++ c :: List.rdropWhile isBlank t
  induction t using List.reverseRecOn with
  | nil => exact List.rdropWhile_concat_neg _ _ _ (by simp [visible])
  | append_singleton t d ih =>
    rw [← List.cons_append, ← List.append_assoc]
    by_cases blank : isBlank d = true
    · rw [List.rdropWhile_concat_pos _ _ _ blank, List.rdropWhile_concat_pos _ _ _ blank]
      exact ih
    · rw [List.rdropWhile_concat_neg _ _ _ blank, List.rdropWhile_concat_neg _ _ _ blank]
      simp

/-- Trimming leaves what is around a visible character. -/
theorem exists_trim_append_cons {c : Char} (visible : isBlank c = false) (s t : Text) :
    ∃ u, trim (s ++ c :: t) = s.trimStart ++ c :: u :=
  ⟨_, trim_append_cons visible s t⟩

/-! ### Tails from the start of a line -/

/-- The parts between line feeds are the first lines of the tails. -/
theorem splitOn_eq_map_lineTails (t : Text) :
    t.splitOn '\n' = t.lineTails.map fun tail => tail.takeWhile (· ≠ '\n') := by
  have rest : (t.splitOn '\n').tail =
      t.afterLineFeeds.map fun tail => tail.takeWhile (· ≠ '\n') := by
    induction t with
    | nil => rfl
    | cons c t ih =>
      rw [List.splitOn_cons_eq_if_modifyHead, afterLineFeeds]
      by_cases feed : c = '\n'
      · simp only [feed, beq_self_eq_true, ↓reduceIte, List.tail_cons, List.map_cons]
        rw [← ih]
        exact splitOn_eq_cons t
      · rw [splitOn_eq_cons t]
        simpa [feed] using ih
  rw [splitOn_eq_cons, rest]
  rfl

/-- A text whose imports and declarators have neither braces nor quotes. -/
def PlainLines (t : Text) : Prop :=
  ∀ line ∈ t.withoutComments.splitOn '\n', Script.PlainLine (Text.trim line)

/-- Whether the lines of a text are plain is seen from its lines of code. -/
theorem plainLines_iff_codeLines {t : Text} :
    t.PlainLines ↔ ∀ line ∈ (Script.codeLines t).map (·.2), Script.PlainLine line :=
  (Script.forall_mem_codeLines_iff Script.plainLine_nil t).symm

/-- Lines that are the same, or the same up to a quote and with the quote. -/
inductive SameFront : Text → Text → Prop
  | same (line : Text) : SameFront line line
  | quote (s t u : Text) : SameFront (s ++ '"' :: t) (s ++ '"' :: u)

private theorem SameFront.plainLine_trim {line line' : Text} (front : SameFront line line')
    (plain : Script.PlainLine line.trim) : Script.PlainLine line'.trim := by
  cases front with
  | same => exact plain
  | quote s t u =>
    obtain ⟨t', trimmed⟩ := exists_trim_append_cons (c := '"') rfl s t
    obtain ⟨u', trimmed'⟩ := exists_trim_append_cons (c := '"') rfl s u
    rw [trimmed] at plain
    rw [trimmed']
    exact plain.change u'

/-- Lines with the same front are the same up to the first quote. -/
theorem SameFront.takeWhile_eq {line line' : Text} (front : SameFront line line') :
    line.takeWhile (· ≠ '"') = line'.takeWhile (· ≠ '"') := by
  cases front with
  | same => rfl
  | quote s t u =>
    have front : ∀ w, (s ++ '"' :: w).takeWhile (· ≠ '"') = (s ++ ['"']).takeWhile (· ≠ '"') := by
      intro w
      rw [List.append_cons, takeWhile_append_of_mem (by simp)]
    exact (front t).trans (front u).symm

/-- The first line of a tail keeps its front when what follows a quote in the tail changes. -/
theorem sameFront_takeWhile (s t u : Text) :
    SameFront ((s ++ '"' :: t).takeWhile (· ≠ '\n')) ((s ++ '"' :: u).takeWhile (· ≠ '\n')) := by
  by_cases feed : '\n' ∈ s
  · rw [takeWhile_append_of_mem feed, takeWhile_append_of_mem feed]
    exact .same _
  · have quote : ∀ v : Text, ('"' :: v).takeWhile (· ≠ '\n') = '"' :: v.takeWhile (· ≠ '\n') :=
      fun v => rfl
    rw [takeWhile_append_of_not_mem feed, takeWhile_append_of_not_mem feed, quote, quote]
    exact .quote _ _ _

/-- Where a text is changed behind a quote and no line feed comes in, every line has the front of
a line that was there. -/
theorem exists_sameFront {s t u v line' : Text} (inLine : '\n' ∉ u)
    (member : line' ∈ (s ++ '"' :: (u ++ v)).splitOn '\n') :
    ∃ line ∈ (s ++ '"' :: (t ++ v)).splitOn '\n', SameFront line line' := by
  have feeds : ∀ w : Text, afterLineFeeds ('"' :: w) = afterLineFeeds w := fun w => rfl
  rw [splitOn_eq_map_lineTails] at member ⊢
  obtain ⟨tail, isTail, rfl⟩ := List.mem_map.mp member
  suffices kept : ∃ tail' ∈ lineTails (s ++ '"' :: (t ++ v)),
      SameFront (tail'.takeWhile (· ≠ '\n')) (tail.takeWhile (· ≠ '\n')) by
    obtain ⟨tail', isTail', front⟩ := kept
    exact ⟨_, List.mem_map_of_mem isTail', front⟩
  simp only [lineTails, afterLineFeeds_append, feeds, List.mem_cons,
    List.mem_append, List.mem_map] at isTail ⊢
  rcases isTail with rfl | ⟨start, begins, rfl⟩ | ⟨start, begins, rfl⟩ | later
  · exact ⟨_, .inl rfl, sameFront_takeWhile _ _ _⟩
  · exact ⟨_, .inr (.inl ⟨start, begins, rfl⟩), sameFront_takeWhile _ _ _⟩
  · rw [afterLineFeeds_of_not_mem inLine] at begins
    cases begins
  · exact ⟨tail, .inr (.inr (.inr later)), .same _⟩

end Text

private theorem flatMap_withoutComment_map_code (t : Text) :
    (t.map .code).flatMap Piece.withoutComment = t := by
  induction t with
  | nil => rfl
  | cons c t ih =>
    rw [List.map_cons, List.flatMap_cons, ih]
    rfl

private theorem not_mem_withoutComment {ps : List Piece} (formed : ∀ p ∈ ps, p.WellFormed)
    (inLine : '\n' ∉ lineCode ps) : '\n' ∉ ps.flatMap Piece.withoutComment := by
  induction ps with
  | nil => exact List.not_mem_nil
  | cons p ps ih =>
    rw [← List.singleton_append, lineCode_append, List.mem_append, not_or] at inLine
    have rest := ih (fun q later => formed q (List.mem_cons_of_mem _ later)) inLine.2
    rw [List.flatMap_cons, List.mem_append, not_or]
    refine ⟨?_, rest⟩
    rcases p with c | ⟨kind, body, closed⟩
    · exact inLine.1
    · by_cases comment : kind = .comment
      · subst comment
        rw [lineCode_cons_comment, lineCode_nil, List.append_nil] at inLine
        exact inLine.1
      · have literal : (Piece.region kind body closed).isComment = false := by
          cases kind <;> simp_all [Piece.isComment]
        have text : (Piece.region kind body closed).withoutComment = body := by
          cases kind <;> simp_all [Piece.withoutComment, Piece.text]
        rw [text]
        exact (formed _ List.mem_cons_self).not_mem_lineFeed literal (by simp)

/-- An expansion changes what stands from behind a literal to a closing parenthesis, and puts no
line feed there. Only the gaps around the percent sign had one. -/
theorem Text.Lined.exists_call {t next : Text} (lined : t.Lined)
    (expanded : t.expandFirst = .ok (some next)) :
    ∃ s quoted gap gap' inside u v : Text,
      t.withoutComments =
        s ++ '"' :: (quoted ++ (gap ++ '%' :: (gap' ++ '(' :: (inside ++ ')' :: v)))) ∧
      next.withoutComments = s ++ '"' :: (quoted ++ (u ++ v)) ∧
      ((∀ c ∈ gap, isGap c = true) ∧ ∀ c ∈ gap', isGap c = true) ∧
      '\n' ∉ quoted ∧ '\n' ∉ inside ∧ '\n' ∉ u := by
  obtain ⟨site, spelled⟩ := exists_site_of_expandFirst expanded
  have read := lined.pieces_expanded site spelled
  obtain ⟨-, -, inside, -⟩ := lined.depths_of_site site
  have formed := (scanned_pieces next).wellFormed
  rw [read] at formed
  have literal := formed (.region .string site.body true) (by simp [FormatCall.Site.expanded])
  obtain ⟨-, quoted, body⟩ := exists_of_wellFormed_string literal
  have closed : '\n' ∉ '"' :: quoted := by
    rw [← body]
    exact literal.not_mem_lineFeed rfl (by simp)
  have arguments : '\n' ∉ site.inside.flatMap Piece.withoutComment :=
    not_mem_withoutComment ((scanned_pieces t).part site.inside_isInfix).wellFormed inside
  have substituted : '\n' ∉ ((FormatCall.argumentParts site.inside).flatMap
      FormatCall.substitutionPieces).flatMap Piece.withoutComment := by
    refine not_mem_withoutComment ?_ (site.not_mem_lineCode_substitutions inside)
    intro p member
    apply formed p
    rw [FormatCall.Site.expanded]
    exact List.mem_append_right _ (List.mem_cons_of_mem _ (List.mem_append_left _ member))
  refine ⟨site.before.flatMap Piece.withoutComment, quoted, site.gap, site.gap',
    site.inside.flatMap Piece.withoutComment, _, site.after.flatMap Piece.withoutComment, ?_, ?_,
    ⟨site.isGap, site.isGap'⟩, List.not_mem_of_not_mem_cons closed, arguments, substituted⟩
  · have stripped := congrArg (List.flatMap Piece.withoutComment) site.whole
    rw [List.flatMap_append, List.flatMap_cons, List.flatMap_append, List.flatMap_cons,
      List.flatMap_append, List.flatMap_cons, List.flatMap_append, List.flatMap_cons,
      flatMap_withoutComment_map_code, flatMap_withoutComment_map_code] at stripped
    unfold withoutComments
    simpa [Piece.withoutComment, Piece.text, body] using stripped
  · rw [withoutComments, read, FormatCall.Site.expanded, List.flatMap_append, List.flatMap_cons,
      List.flatMap_append]
    simp only [Piece.withoutComment, Piece.text, body, List.cons_append]

/-- An expansion changes what stands from the quote of a literal to a closing parenthesis, and puts
no line feed there. -/
theorem Text.Lined.exists_change {t next : Text} (lined : t.Lined)
    (expanded : t.expandFirst = .ok (some next)) :
    ∃ s u u' v : Text, t.withoutComments = s ++ '"' :: (u ++ ')' :: v) ∧
      next.withoutComments = s ++ '"' :: (u' ++ v) ∧ '\n' ∉ u' := by
  obtain ⟨s, quoted, gap, gap', inside, u, v, old, new, -, closed, -, substituted⟩ :=
    lined.exists_call expanded
  refine ⟨s, quoted ++ (gap ++ '%' :: (gap' ++ '(' :: inside)), quoted ++ u, v, ?_, ?_, ?_⟩
  · rw [old]
    simp
  · rw [new, List.append_assoc]
  · rw [List.mem_append, not_or]
    exact ⟨closed, substituted⟩

/-- Every line after an expansion has the front of a line before it. -/
theorem Text.Lined.exists_sameFront_of_expandFirst {t next line' : Text} (lined : t.Lined)
    (expanded : t.expandFirst = .ok (some next))
    (member : line' ∈ next.withoutComments.splitOn '\n') :
    ∃ line ∈ t.withoutComments.splitOn '\n', SameFront line line' := by
  obtain ⟨s, u, u', v, old, new, inLine⟩ := lined.exists_change expanded
  rw [new] at member
  rw [old, List.append_cons u]
  exact exists_sameFront inLine member

/-- Expansions keep imports and declarators plain. -/
theorem Text.PlainLines.of_expandFirst {t next : Text} (plain : t.PlainLines)
    (settled : t.Settled) (expanded : t.expandFirst = .ok (some next)) : next.PlainLines := by
  intro line' member
  obtain ⟨line, present, front⟩ := settled.exists_sameFront_of_expandFirst expanded member
  exact front.plainLine_trim (plain line present)

/-- The whole expansion of a settled text keeps its lines plain. -/
theorem Text.PlainLines.of_expandAll {t r : Text} (plain : t.PlainLines) (settled : t.Settled)
    (expanded : t.expandAll = .ok r) : r.Settled ∧ r.PlainLines := by
  have step : ∀ {s next : Text}, s.Settled ∧ s.PlainLines → s.expandFirst = .ok (some next) →
      next.Settled ∧ next.PlainLines := fun both expanded =>
    ⟨both.1.of_expandFirst expanded, both.2.of_expandFirst both.1 expanded⟩
  exact (Text.of_expandAll step ⟨settled, plain⟩ expanded).1

end ScriptLoom
