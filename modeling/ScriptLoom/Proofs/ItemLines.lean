import ScriptLoom.Proofs.ScriptBraces

/-! # The lines of items

Items are taken off lines of code, so they are laid out as those are (`Script.Item.Laid`): the
lines of a function end with visible characters (`Script.Tight`), and a statement is one line
(`Script.isLine_of_mem_statements`), also where it comes from a global.
-/

namespace ScriptLoom

private theorem Text.IsLine.append {front value : Text} (front_last : front.getLast? = some ' ')
    (front_inLine : '\n' ∉ front) (trimmed : value.trim = value) (inLine : '\n' ∉ value) :
    (front ++ value).IsLine := by
  refine ⟨?_, ?_, ?_⟩
  · intro empty
    rw [(List.append_eq_nil_iff.mp empty).1] at front_last
    cases front_last
  · simp [front_inLine, inLine]
  · intro last
    rw [List.getLast?_append, Option.or_eq_some_iff] at last
    rcases last with last | ⟨-, last⟩
    · rw [← trimmed] at last
      exact absurd (isBlank_getLast?_trim last) (by decide)
    · rw [front_last] at last
      cases last

namespace Script

/-! ### Items -/

/-- Whether every line of a text ends with a visible character. -/
def Tight (t : Text) : Prop :=
  ∀ part ∈ t.splitOn '\n', ∃ c, part.getLast? = some c ∧ Text.isBlank c = false

/-- Lines that end with visible characters are lines of any text. -/
theorem isLine_of_tight {text : Text} (tight : Tight text) :
    ∀ part ∈ text.splitOn '\n', Text.IsLine part := by
  intro part member
  obtain ⟨c, last, visible⟩ := tight part member
  refine ⟨?_, not_mem_of_mem_splitOn member, ?_⟩
  · rintro rfl
    cases last
  · rw [last]
    rintro same
    cases same
    exact absurd visible (by decide)

/-- What is known of an item that was taken off lines of code. -/
def Item.Laid : Item → Prop
  | .importLine line => TrimmedLine line
  | .globalLine line => TrimmedLine line ∧ line.startsWith Keyword.global = true
  | .function text => text.CommentFree ∧ Tight text
  | .statement text => text.IsLine

/-- A line of code is a line of any text. -/
theorem TrimmedLine.isLine {line : Text} (line_trimmed : TrimmedLine line) : line.IsLine :=
  .of_trim line_trimmed.trimmed line_trimmed.nonempty line_trimmed.inLine

private theorem Tight.of_append {front text : Text} (tight : Tight (front ++ text))
    (inLine : '\n' ∉ front) {last : Char} (ends : front.getLast? = some last)
    (blank : Text.isBlank last = true) :
    Tight text := by
  have first := Text.splitOn_eq_cons (front ++ text)
  have later : ((front ++ text).splitOn '\n').tail = (text.splitOn '\n').tail := by
    have dropped := Text.drop_splitOn_append front text
    rwa [List.count_eq_zero_of_not_mem inLine, Nat.zero_add, List.drop_one] at dropped
  rw [later, takeWhile_append_of_not_mem inLine] at first
  intro part member
  rw [Text.splitOn_eq_cons text] at member
  rcases List.mem_cons.mp member with rfl | inTail
  · obtain ⟨c, whole_last, visible⟩ := tight _ (first ▸ List.mem_cons_self)
    refine ⟨c, ?_, visible⟩
    rw [List.getLast?_append, ends, Option.or_eq_some_iff] at whole_last
    rcases whole_last with text_last | ⟨-, front_last⟩
    · exact text_last
    · obtain rfl : last = c := Option.some.inj front_last
      exact absurd blank (by simp [visible])
  · exact tight part (first ▸ List.mem_cons_of_mem _ inTail)

/-- The lines of a function are lines of code, but for its first line, which has lost the keyword,
and for its last one, which ends with the closing brace. -/
theorem laid_of_function_cutBlock? {line block after : Text} {ls : List Text}
    (each : ∀ l ∈ line :: ls, TrimmedLine l) (starts : line.startsWith Keyword.function = true)
    (cut : (Text.unlines (line :: ls)).cutBlock? = some (block, after)) :
    Item.Laid (.function (block.drop Keyword.function.length)) := by
  obtain ⟨text, header, inside, rfl, whole, parts, body, -, -⟩ :=
    exists_of_function_cutBlock? (startsWith_unlines starts ls) cut
  have free := (Text.Reads.unlines fun l member => (each l member).free).free
  rw [List.drop_left]
  refine ⟨?_, ?_⟩
  · intro p member
    apply free p
    rw [parts]
    exact List.mem_append_right _ (List.mem_append_left _ member)
  · have lines : (Text.unlines (line :: ls)).splitOn '\n' = line :: ls :=
      List.splitOn_intercalate '\n' (fun l member => (each l member).inLine) (by simp)
    have ends : (Keyword.function ++ text).getLast? = some '}' := by
      have spelled : text = spell (header ++ .code '{' :: inside) ++ ['}'] := by
        rw [← Text.spell_pieces text, body]
        simp [Piece.text]
      rw [spelled, ← List.append_assoc, List.getLast?_concat]
    have whole_tight : Tight (Keyword.function ++ text) := by
      intro part member
      rcases Text.mem_splitOn_append_or ends (by decide) member after with inLines | last
      · rw [← whole, lines] at inLines
        exact (each part inLines).exists_getLast?
      · exact ⟨'}', last, by decide⟩
    exact whole_tight.of_append (by decide) rfl rfl

private theorem Takes.laid {lines rest : List (Nat × Text)} {items : List Item}
    (takes : Takes lines items rest) (each : ∀ line ∈ lines.map (·.2), TrimmedLine line) :
    ∀ item ∈ items, item.Laid := by
  intro item member
  cases takes with
  | @importLine n line rest =>
    obtain rfl := List.mem_singleton.mp member
    exact each line List.mem_cons_self
  | @globalLine n line rest starts =>
    obtain rfl := List.mem_singleton.mp member
    exact ⟨each line List.mem_cons_self, starts⟩
  | @statement n line rest =>
    obtain rfl := List.mem_singleton.mp member
    exact (each line List.mem_cons_self).isLine
  | @function n line block after rest starts cut =>
    rcases List.mem_cons.mp member with rfl | trailing
    · exact laid_of_function_cutBlock? each starts cut
    · unfold trailingItems at trailing
      dsimp only at trailing
      split at trailing
      · cases trailing
      · next nonempty =>
        obtain rfl := List.mem_singleton.mp trailing
        refine .of_trim (Text.trim_trim _) nonempty ?_
        intro feed
        have inLine := List.mem_takeWhile_imp ((Text.trim_isInfix _).subset feed)
        exact absurd inLine (by decide)

/-- The items that lines of code are taken apart into are laid on lines. -/
theorem Taken.laid {lines : List (Nat × Text)} {items : List Item} (taken : Taken lines items)
    (each : ∀ line ∈ lines.map (·.2), TrimmedLine line) : ∀ item ∈ items, item.Laid := by
  induction taken with
  | nil => exact nofun
  | step takes later ih =>
    intro item member
    rcases List.mem_append.mp member with first | rest
    · exact takes.laid each item first
    · apply ih _ item rest
      exact fun line inRest => each line ((takes.isSuffix.map Prod.snd).subset inRest)

/-! ### Statements -/

/-- The statements of a script in order, as they go into its entry point. -/
def statements (items : List Item) : List Text :=
  items.zipIdx.filterMap fun (item, i) => finalStatement? items item i

private theorem isLine_finalStatement? {items : List Item} {item : Item} {index : Nat} {text : Text}
    (laid : item.Laid) (made : finalStatement? items item index = some text) : text.IsLine := by
  cases item with
  | importLine => cases made
  | function => cases made
  | statement own =>
    cases made
    exact laid
  | globalLine line =>
    obtain ⟨code, starts⟩ := laid
    obtain ⟨type, name, initializer⟩ := Global.isInfix_ofLine code.trimmed starts
    have noType : '\n' ∉ (Global.ofLine line).type := fun feed => code.inLine (type.subset feed)
    have noName : '\n' ∉ (Global.ofLine line).name := fun feed => code.inLine (name.subset feed)
    have built : ∀ value, (Global.ofLine line).initializer = some value →
        ∀ front : Text, front.getLast? = some ' ' → '\n' ∉ front → (front ++ value).IsLine := by
      intro value given front last inLine
      obtain ⟨part, trimmed⟩ := initializer value given
      exact .append last inLine trimmed fun feed => code.inLine (part.subset feed)
    obtain ⟨value, given, rfl | rfl⟩ := exists_of_finalStatement?_globalLine made
    · unfold assignment
      split
      · apply built value given
        · exact List.getLast?_append_of_ne_nil _ (by decide)
        · simp [noType, noName]
      · apply built value given
        · exact List.getLast?_append_of_ne_nil _ (by decide)
        · simp [noName]
    · apply built value given
      · exact List.getLast?_append_of_ne_nil _ (by decide)
      · simp [noType, noName]

/-- The statements among such items are lines. -/
theorem isLine_of_mem_statements {items : List Item} (laid : ∀ item ∈ items, item.Laid) :
    ∀ text ∈ statements items, text.IsLine := by
  intro text member
  obtain ⟨pair, listed, made⟩ := List.mem_filterMap.mp member
  exact isLine_finalStatement? (laid pair.1 (List.fst_mem_of_mem_zipIdx listed)) made

end Script

end ScriptLoom
