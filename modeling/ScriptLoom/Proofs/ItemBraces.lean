import ScriptLoom.Proofs.Braces
import ScriptLoom.Proofs.Decomposition

/-! # The braces of the parts of a script

Taking a script apart moves its functions out of the statements. The braces of lines of code are
those of the items taken off, in order (`Script.Takes.braces_eq`), a function closes as many braces
more than it opens as stand before its first opening brace, and so the statements alone leave open
exactly the braces that the functions alone close (`Script.exists_nesting_of_items`). Imports and
the declarators of globals must be free of braces and quotes for that (`Script.PlainLine`).
-/

namespace ScriptLoom

/-- Whether a character is a brace or a quote. -/
def isBraceOrQuote (c : Char) : Bool :=
  c = '{' || c = '}' || c = '"' || c = '\''

/-- What is neither brace nor quote is no bracket and opens no literal. -/
theorem isBracket_of_isBraceOrQuote {c : Char} (plain : isBraceOrQuote c = false) :
    isBracket '{' '}' c = false ∧ Region.ofQuote? c = none := by
  simp only [isBraceOrQuote, Bool.or_eq_false_iff, decide_eq_false_iff_not] at plain
  obtain ⟨⟨⟨opening, closing⟩, double⟩, single⟩ := plain
  simp [isBracket, Region.ofQuote?, opening, closing, double, single]

namespace Text

/-- What is left behind a start makes up the text with it. -/
theorem dropPrefix?_eq_some {start t rest : Text} (dropped : dropPrefix? start t = some rest) :
    t = start ++ rest := by
  fun_induction dropPrefix? start t with
  | case1 => cases dropped; rfl
  | case2 => cases dropped
  | case3 c start t ih => rw [ih dropped, List.cons_append]
  | case4 => cases dropped

/-- A start that is there can be dropped. -/
theorem dropPrefix?_append (start rest : Text) : dropPrefix? start (start ++ rest) = some rest := by
  induction start with
  | nil => rfl
  | cons c start ih => simpa [dropPrefix?] using ih

/-- A text is cut at the first place of a character. -/
theorem cutAt?_eq_some {c : Char} {t before after : Text}
    (cut : cutAt? c t = some (before, after)) :
    t = before ++ c :: after ∧ c ∉ before := by
  induction t generalizing before with
  | nil => cases cut
  | cons d t ih =>
    unfold cutAt? at cut
    split at cut
    · next same =>
      cases cut
      exact ⟨by rw [same]; rfl, List.not_mem_nil⟩
    · next other =>
      obtain ⟨parts, found, equal⟩ := Option.map_eq_some_iff.mp cut
      cases equal
      obtain ⟨whole, absent⟩ := ih found
      exact ⟨by rw [whole]; rfl, List.not_mem_cons_of_ne_of_not_mem (Ne.symm other) absent⟩

/-- A text that is not cut does not have the character. -/
theorem cutAt?_eq_none {c : Char} {t : Text} (uncut : cutAt? c t = none) : c ∉ t := by
  induction t with
  | nil => exact List.not_mem_nil
  | cons d t ih =>
    unfold cutAt? at uncut
    split at uncut
    · cases uncut
    · next other =>
      exact List.not_mem_cons_of_ne_of_not_mem (Ne.symm other)
        (ih (Option.map_eq_none_iff.mp uncut))

/-- A text is cut at a character of the class. -/
theorem cutAtLast?_eq_some {p : Char → Bool} {t before after : Text}
    (cut : cutAtLast? p t = some (before, after)) :
    ∃ c, p c = true ∧ t = before ++ c :: after := by
  unfold cutAtLast? at cut
  split at cut
  · cases cut
  · next c rest found =>
    cases cut
    have first := List.head?_dropWhile_not (fun c => !p c) t.reverse
    rw [found] at first
    refine ⟨c, by simpa using first, ?_⟩
    have whole := List.takeWhile_append_dropWhile (p := fun c => !p c) (l := t.reverse)
    rw [found] at whole
    have reversed := congrArg List.reverse whole
    simpa using reversed.symm

end Text

namespace Script

/-- A line in which an import or the declarator of a global has neither braces nor quotes. -/
structure PlainLine (line : Text) : Prop where
  imports : line.startsWith Keyword.imports = true → ∀ c ∈ line, isBraceOrQuote c = false
  declarator : line.startsWith Keyword.global = true →
    ∀ c ∈ line.takeWhile (· ≠ '='), isBraceOrQuote c = false

instance (line : Text) : Decidable (PlainLine line) :=
  decidable_of_iff
    ((line.startsWith Keyword.imports = true → ∀ c ∈ line, isBraceOrQuote c = false) ∧
      (line.startsWith Keyword.global = true →
        ∀ c ∈ line.takeWhile (· ≠ '='), isBraceOrQuote c = false))
    ⟨fun holds => ⟨holds.1, holds.2⟩, fun plain => ⟨plain.imports, plain.declarator⟩⟩

/-- A line as a script is taken apart into. -/
structure CodeLine (line : Text) : Prop extends TrimmedLine line where
  plain : PlainLine line

end Script

/-! ### Globals -/

/-- A global whose names are code without braces and whose line leads to its initializer. -/
structure Global.Faithful (g : Global) (line : Text) : Prop where
  type : g.type.Silent
  name : g.name.Silent
  initializer : ∀ value, g.initializer = some value → line.LeadsTo value
  bare : g.initializer = none → line.Silent

namespace Global

/-- A global with its declarator cut into type and name at the last blank. -/
def ofDeclarator (declarator : Text) (initializer : Option Text) : Global :=
  match declarator.cutAtLast? Text.isBlank with
  | some (type, name) => ⟨type.trim, name.trim, initializer⟩
  | none => ⟨[], declarator, initializer⟩

/-- A global line is divided at its first equals sign. -/
theorem ofLine_eq {body : Text} (trimmed : (Keyword.global ++ body).trim = Keyword.global ++ body) :
    ofLine (Keyword.global ++ body) =
      match body.trim.cutAt? '=' with
      | some (declarator, value) => ofDeclarator declarator.trim (some value.trim)
      | none => ofDeclarator (body.trim.dropEndWhile (· = ';')).trim none := by
  unfold ofLine
  simp only [trimmed, Text.dropPrefix?_append, Option.getD_some]
  cases body.trim.cutAt? '=' <;> rfl

/-- A declarator keeps its initializer. -/
theorem initializer_ofDeclarator (declarator : Text) (initializer : Option Text) :
    (ofDeclarator declarator initializer).initializer = initializer := by
  unfold ofDeclarator
  split <;> rfl

private theorem isInfix_ofDeclarator (declarator : Text) (initializer : Option Text) :
    (ofDeclarator declarator initializer).type <:+: declarator ∧
      (ofDeclarator declarator initializer).name <:+: declarator := by
  unfold ofDeclarator
  split
  · next type name cut =>
    obtain ⟨c, -, whole⟩ := Text.cutAtLast?_eq_some cut
    have typePart : type <:+: declarator := ⟨[], c :: name, by rw [whole]; rfl⟩
    have namePart : name <:+: declarator := ⟨type ++ [c], [], by simp [whole]⟩
    exact ⟨(Text.trim_isInfix type).trans typePart, (Text.trim_isInfix name).trans namePart⟩
  · exact ⟨⟨[], declarator, rfl⟩, ⟨[], [], by simp⟩⟩

/-- The parts of a global are parts of its line. -/
theorem isInfix_ofLine {line : Text} (trimmed : line.trim = line)
    (starts : line.startsWith Keyword.global = true) :
    (ofLine line).type <:+: line ∧ (ofLine line).name <:+: line ∧
      ∀ value, (ofLine line).initializer = some value → value <:+: line ∧ value.trim = value := by
  obtain ⟨body, rfl⟩ := List.isPrefixOf_iff_prefix.mp starts
  have inLine : Text.trim body <:+: Keyword.global ++ body :=
    (Text.trim_isInfix body).trans (List.suffix_append _ _).isInfix
  rw [ofLine_eq trimmed]
  cases cut : Text.cutAt? '=' (Text.trim body) with
  | some parts =>
    obtain ⟨declarator, value⟩ := parts
    obtain ⟨whole, -⟩ := Text.cutAt?_eq_some cut
    have declaratorPart : declarator <:+: Text.trim body := ⟨[], '=' :: value, by rw [whole]; rfl⟩
    have valuePart : value <:+: Text.trim body := ⟨declarator ++ ['='], [], by simp [whole]⟩
    obtain ⟨type, name⟩ := isInfix_ofDeclarator declarator.trim (some value.trim)
    have declared := (Text.trim_isInfix declarator).trans (declaratorPart.trans inLine)
    refine ⟨type.trans declared, name.trans declared, ?_⟩
    intro result same
    rw [initializer_ofDeclarator] at same
    cases same
    exact ⟨(Text.trim_isInfix value).trans (valuePart.trans inLine), Text.trim_trim value⟩
  | none =>
    have ending : Text.dropEndWhile (· = ';') (Text.trim body) <+: Text.trim body :=
      List.rdropWhile_prefix ..
    have declared := (Text.trim_isInfix (Text.dropEndWhile (· = ';') (Text.trim body))).trans
      (ending.isInfix.trans inLine)
    obtain ⟨type, name⟩ :=
      isInfix_ofDeclarator (Text.dropEndWhile (· = ';') (Text.trim body)).trim none
    refine ⟨type.trans declared, name.trans declared, ?_⟩
    intro result same
    rw [initializer_ofDeclarator] at same
    cases same

/-- The declarator and the value of a line with an equals sign. -/
theorem silent_of_value {front value : Text} (noSign : '=' ∉ front)
    (code : Script.CodeLine (front ++ '=' :: value))
    (starts : Text.startsWith (front ++ '=' :: value) Keyword.global = true) :
    front.Silent ∧ (front ++ '=' :: value).LeadsTo value.trim := by
  have taken : (front ++ '=' :: value).takeWhile (· ≠ '=') = front := by
    rw [takeWhile_append_of_not_mem noSign]
    simp
  have plain := code.plain.declarator starts
  rw [taken] at plain
  have none : ∀ c ∈ front ++ ['='], isBracket '{' '}' c = false ∧ Region.ofQuote? c = none := by
    intro c member
    rcases List.mem_append.mp member with early | sign
    · exact isBracket_of_isBraceOrQuote (plain c early)
    · rw [List.mem_singleton.mp sign]
      decide
  have apart : front ++ '=' :: value = (front ++ ['=']) ++ value := by simp
  have bare := code.toTrimmedLine
  rw [apart] at bare ⊢
  obtain ⟨silent, leads⟩ := Text.silent_of_unquoted bare.free none
  obtain ⟨blanks, value_eq, blank⟩ := bare.exists_eq_blanks_append_trim
  refine ⟨silent.part ⟨[], ['='], rfl⟩, leads.trans ?_⟩
  have visible : (blanks ++ value.trim).LeadsTo value.trim :=
    .of_plain (fun c member => Text.isPlain_of_isBlank (blank c member))
      (fun c member => isBrace_of_isBlank c (blank c member)) _
  rwa [← value_eq] at visible

private theorem silent_of_bare {line : Text} (noSign : '=' ∉ line) (code : Script.CodeLine line)
    (starts : line.startsWith Keyword.global = true) : line.Silent := by
  have taken := takeWhile_append_of_not_mem noSign []
  rw [List.takeWhile_nil, List.append_nil] at taken
  have plain := code.plain.declarator starts
  rw [taken] at plain
  have free := code.free
  rw [← List.append_nil line] at free
  obtain ⟨silent, -⟩ := Text.silent_of_unquoted free fun c member =>
    isBracket_of_isBraceOrQuote (plain c member)
  exact silent

/-- A line that starts with the keyword is read faithfully. -/
theorem faithful_ofLine {line : Text} (code : Script.CodeLine line)
    (starts : line.startsWith Keyword.global = true) : (ofLine line).Faithful line := by
  obtain ⟨body, rfl⟩ := List.isPrefixOf_iff_prefix.mp starts
  obtain ⟨blanks, split, blank⟩ := code.toTrimmedLine.exists_eq_blanks_append_trim
  have noSign : '=' ∉ Keyword.global ++ blanks := by
    intro member
    rcases List.mem_append.mp member with keyword | inBlanks
    · exact absurd keyword (by decide)
    · exact absurd (blank _ inBlanks) (by decide)
  obtain ⟨type, name, -⟩ := isInfix_ofLine code.trimmed starts
  rw [ofLine_eq code.trimmed] at type name ⊢
  cases cut : Text.cutAt? '=' (Text.trim body) with
  | some parts =>
    obtain ⟨declarator, value⟩ := parts
    obtain ⟨trimmed, noSign'⟩ := Text.cutAt?_eq_some cut
    have line_eq : Keyword.global ++ body =
        (Keyword.global ++ blanks ++ declarator) ++ '=' :: value := by
      rw [split, trimmed]
      simp
    rw [line_eq] at code starts ⊢
    have none : '=' ∉ Keyword.global ++ blanks ++ declarator := by
      rw [List.mem_append, not_or]
      exact ⟨noSign, noSign'⟩
    obtain ⟨silent, leads⟩ := silent_of_value none code starts
    have part : declarator.trim <:+: Keyword.global ++ blanks ++ declarator :=
      (Text.trim_isInfix declarator).trans (List.suffix_append _ _).isInfix
    obtain ⟨type, name⟩ := isInfix_ofDeclarator declarator.trim (some value.trim)
    refine ⟨silent.part (type.trans part), silent.part (name.trans part), ?_, ?_⟩
    · intro result same
      rw [initializer_ofDeclarator] at same
      cases same
      exact leads
    · intro missing
      rw [initializer_ofDeclarator] at missing
      cases missing
  | none =>
    rw [cut] at type name
    have noSign' : '=' ∉ Keyword.global ++ body := by
      rw [split, ← List.append_assoc, List.mem_append, not_or]
      exact ⟨noSign, Text.cutAt?_eq_none cut⟩
    have silent := silent_of_bare noSign' code starts
    refine ⟨silent.part type, silent.part name, ?_, fun _ => silent⟩
    intro result same
    rw [initializer_ofDeclarator] at same
    cases same

end Global

namespace Script

/-! ### Functions -/

/-- A function behind its keyword closes some braces more than it opens, and the braces of the
text are those of the function and of what follows. -/
theorem reads_of_function_cutBlock? {t block after : Text} (free : t.CommentFree)
    (starts : t.startsWith Keyword.function = true) (cut : t.cutBlock? = some (block, after)) :
    ∃ text : Text, block = Keyword.function ++ text ∧ t = block ++ after ∧ text.CommentFree ∧
      after.CommentFree ∧ t.braces = text.braces ++ after.braces ∧
      ∃ drop, nesting '{' '}' drop text.braces = some 0 := by
  obtain ⟨text, header, inside, rfl, whole, parts, body, first, balanced⟩ :=
    exists_of_function_cutBlock? starts cut
  refine ⟨text, rfl, whole, ?_, ?_, ?_, ?_⟩
  · intro p member
    apply free p
    rw [parts]
    exact List.mem_append_right _ (List.mem_append_left _ member)
  · intro p member
    apply free p
    rw [parts]
    exact List.mem_append_right _ (List.mem_append_right _ member)
  · have silent : Keyword.function.filter (isBracket '{' '}') = [] := by decide
    rw [Text.braces, Text.braces, Text.braces, Text.codeIn, Text.codeIn, Text.codeIn, parts,
      codeOf_append, codeOf_append, List.filter_append, List.filter_append, codeOf_map_code, silent,
      List.nil_append]
  · have noOpening : '{' ∉ codeOf header := by
      intro member
      obtain ⟨p, inHeader, isCode⟩ := List.mem_filterMap.mp member
      cases p with
      | code c =>
        cases isCode
        exact first inHeader
      | region => cases isCode
    refine ⟨(codeOf header).count '}', ?_⟩
    rw [Text.nesting_braces, body, codeOf_append, codeOf_cons_code, codeOf_append]
    refine nesting_append_eq_some.mpr ⟨0, nesting_count (by decide) noOpening, ?_⟩
    rw [nesting_cons_opening]
    exact nesting_append_eq_some.mpr ⟨1, nesting_add balanced 1, rfl⟩

/-! ### Items -/

/-- The braces of an item. -/
def Item.braces : Item → Text
  | .importLine _ => []
  | .globalLine line => line.braces
  | .function text => text.braces
  | .statement text => text.braces

/-- What an item that was taken off lines of code satisfies. -/
def Item.Sound : Item → Prop
  | .importLine line => CodeLine line ∧ line.startsWith Keyword.imports = true
  | .globalLine line => CodeLine line ∧ line.startsWith Keyword.global = true
  | .function text => text.CommentFree ∧ ∃ drop, nesting '{' '}' drop text.braces = some 0
  | .statement text => text.CommentFree

private theorem trailingItems_spec {after : Text} (free : after.CommentFree) :
    (∀ item ∈ trailingItems after, item.Sound) ∧
      after.braces = (trailingItems after).flatMap Item.braces ++
        (after.splitOn '\n').tail.flatMap Text.braces := by
  have split := Text.splitOn_eq_cons after
  have reads : after.Reads after.braces := ⟨free, rfl⟩
  have first : Text.CommentFree (after.takeWhile (· ≠ '\n')) := by
    apply free.of_mem_splitOn
    rw [split]
    exact List.mem_cons_self
  have line : (Text.trim (after.takeWhile (· ≠ '\n'))).Reads
      (Text.braces (after.takeWhile (· ≠ '\n'))) :=
    Text.Reads.trim ⟨first, rfl⟩
  have whole := reads.flatMap_splitOn
  rw [split, List.flatMap_cons] at whole
  unfold trailingItems
  by_cases empty : Text.trim (after.takeWhile (· ≠ '\n')) = []
  · rw [empty] at line
    simp only [empty, ↓reduceIte]
    refine ⟨nofun, ?_⟩
    rw [← whole, line.eq_nil]
    rfl
  · simp only [empty, ↓reduceIte]
    refine ⟨?_, ?_⟩
    · intro item member
      obtain rfl := List.mem_singleton.mp member
      exact line.free
    · rw [← whole, ← line.braces]
      simp [Item.braces]

/-- One step keeps the braces in order, and takes off sound items. -/
theorem Takes.braces_eq {lines rest : List (Nat × Text)} {items : List Item}
    (takes : Takes lines items rest) (code : ∀ line ∈ lines.map (·.2), CodeLine line) :
    (∀ item ∈ items, item.Sound) ∧
      (lines.map (·.2)).flatMap Text.braces =
        items.flatMap Item.braces ++ (rest.map (·.2)).flatMap Text.braces := by
  cases takes with
  | @importLine n line rest starts =>
    have own := code line List.mem_cons_self
    refine ⟨by simpa [Item.Sound] using ⟨own, starts⟩, ?_⟩
    have none : line.braces = [] := Text.braces_eq_nil fun c member =>
      (isBracket_of_isBraceOrQuote (own.plain.imports starts c member)).1
    simp [Item.braces, none]
  | @globalLine n line rest starts =>
    have own := code line List.mem_cons_self
    exact ⟨by simpa [Item.Sound] using ⟨own, starts⟩, by simp [Item.braces]⟩
  | @statement n line rest =>
    have own := code line List.mem_cons_self
    exact ⟨by simpa [Item.Sound] using own.free, by simp [Item.braces]⟩
  | @function n line block after rest starts cut =>
    have free : ∀ l ∈ line :: rest.map (·.2), Text.CommentFree l := fun l member =>
      (code l member).free
    have inLine : ∀ l ∈ line :: rest.map (·.2), '\n' ∉ l := fun l member => (code l member).inLine
    have reads := Text.Reads.unlines free
    have begins := startsWith_unlines starts (rest.map (·.2))
    obtain ⟨text, rfl, whole, textFree, afterFree, braces, drop⟩ :=
      reads_of_function_cutBlock? reads.free begins cut
    obtain ⟨sound, behind⟩ := trailingItems_spec afterFree
    have left := tail_splitOn_of_unlines inLine whole
    refine ⟨?_, ?_⟩
    · intro item member
      rcases List.mem_cons.mp member with rfl | trailing
      · rw [List.drop_left]
        exact ⟨textFree, drop⟩
      · exact sound item trailing
    · rw [List.map_cons, ← reads.braces, braces, behind, left, List.flatMap_cons, List.drop_left,
        List.map_drop, List.append_assoc]
      rfl

/-- The items that lines of code are taken apart into are sound and have the braces of the lines. -/
theorem Taken.braces_eq {lines : List (Nat × Text)} {items : List Item}
    (taken : Taken lines items) (code : ∀ line ∈ lines.map (·.2), CodeLine line) :
    (∀ item ∈ items, item.Sound) ∧
      (lines.map (·.2)).flatMap Text.braces = items.flatMap Item.braces := by
  induction taken with
  | nil => exact ⟨nofun, rfl⟩
  | step takes later ih =>
    obtain ⟨sound, first⟩ := takes.braces_eq code
    obtain ⟨sound', rest⟩ := ih fun line member =>
      code line ((takes.isSuffix.map Prod.snd).subset member)
    refine ⟨?_, ?_⟩
    · intro item member
      rcases List.mem_append.mp member with first | later
      · exact sound item first
      · exact sound' item later
    · rw [first, rest, List.flatMap_append]

/-! ### Statements and functions apart -/

/-- The text of a function item. -/
def Item.functionText? : Item → Option Text
  | .function text => some text
  | _ => none

/-- The braces of an item that stay among the statements. -/
def Item.statementBraces : Item → Text
  | .function _ => []
  | item => item.braces

/-- The statements alone leave open what the functions alone close. -/
theorem exists_nesting_of_items {items : List Item} (sound : ∀ item ∈ items, item.Sound)
    {depth final : Nat} (reached : nesting '{' '}' depth (items.flatMap Item.braces) = some final) :
    ∃ drop, nesting '{' '}' depth (items.flatMap Item.statementBraces) = some (final + drop) ∧
      nesting '{' '}' drop ((items.filterMap Item.functionText?).flatMap Text.braces) = some 0 := by
  induction items generalizing depth with
  | nil => exact ⟨0, by simpa using reached, rfl⟩
  | cons item items ih =>
    have further : ∀ item ∈ items, item.Sound := fun item later =>
      sound item (List.mem_cons_of_mem _ later)
    rw [List.flatMap_cons] at reached
    obtain ⟨middle, first, rest⟩ := nesting_append_eq_some.mp reached
    obtain ⟨drop, statements, functions⟩ := ih further rest
    have stays : ∀ w, nesting '{' '}' depth w = some middle →
        nesting '{' '}' depth (w ++ items.flatMap Item.statementBraces) = some (final + drop) :=
      fun w reached => nesting_append_eq_some.mpr ⟨middle, reached, statements⟩
    cases item with
    | function text =>
      obtain ⟨-, closed, drops⟩ := sound (.function text) List.mem_cons_self
      have level : depth = middle + closed := eq_add_of_nesting (by decide) drops first
      refine ⟨closed + drop, ?_, ?_⟩
      · rw [List.flatMap_cons, level, Nat.add_comm closed drop, ← Nat.add_assoc]
        exact nesting_add statements closed
      · have inserted := nesting_insert (u := []) drops functions
        rw [Nat.add_comm] at inserted
        exact inserted
    | importLine line => exact ⟨drop, stays _ first, functions⟩
    | globalLine line => exact ⟨drop, stays _ first, functions⟩
    | statement text => exact ⟨drop, stays _ first, functions⟩

end Script

end ScriptLoom
