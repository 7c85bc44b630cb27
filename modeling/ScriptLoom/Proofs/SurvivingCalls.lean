import ScriptLoom.Proofs.Acceptance
import ScriptLoom.Proofs.CallMarks
import ScriptLoom.Proofs.ItemLines
import ScriptLoom.Proofs.PlainLines

/-! # Format calls that survive their expansion

The expansion of a script leaves no format call in the text that it goes through, but a script is
taken apart on its lines without comments and blanks around them. Indentation, the header of a
method and the merging of overloads only move gaps and put letters in front, so the calls of a
script taken apart are those of its items (`Script.callFree_ofItems_iff`), and as long as no line
goes on with a call of the line before, those of the lines of code (`Script.Taken.hasCall_iff`) and
of the expansion without its comments (`Script.expandFirst_withoutComments_iff`). A comment inside
a call is enough to make it survive.
-/

namespace ScriptLoom

namespace Text

private theorem LeadsTo.hasCall_iff {s t : Text} (leads : s.LeadsTo t) :
    HasCall s.marks ↔ HasCall t.marks := by
  obtain ⟨front, -, read⟩ := leads
  rw [marks, read, marksOf_append, marksOf_map_code, hasCall_code_append]
  rfl

private theorem Silent.not_hasCall {t : Text} (silent : t.Silent) : ¬HasCall t.marks := by
  have leads : t.LeadsTo [] :=
    ⟨t, silent.braceless, by rw [silent.bare, pieces_nil, List.append_nil]⟩
  rw [leads.hasCall_iff, marks_nil]
  exact not_hasCall_nil

end Text

namespace Script

/-! ### Functions -/

private theorem flatMap_marks_deeper (ls : List Text) :
    (ls.dropLast.map ('\t' :: ·) ++ ls.getLast?.toList).flatMap Text.marks =
      ls.flatMap Text.marks := by
  have isGap : ∀ c ∈ ['\t'], Text.isGap c = true := by decide
  have tab : ∀ line : Text, Text.marks ('\t' :: line) = line.marks := Text.marks_gap_append isGap
  rcases List.eq_nil_or_concat ls with rfl | ⟨before, last, rfl⟩
  · rfl
  · simp [List.flatMap_map, tab]

/-- A method has the marks of its function behind some letters. -/
theorem exists_marks_methodText {text : Text} (free : text.CommentFree) (tight : Tight text) :
    ∃ (front front' : Text) (common : List Piece),
      (methodText text).marks = .code 'p' :: (front.map .code ++ common) ∧
      text.marks = front'.map .code ++ common := by
  obtain ⟨header, rest, split⟩ : ∃ (header : Text) (rest : List Text),
      text.splitOn '\n' = header :: rest := ⟨_, _, Text.splitOn_eq_cons text⟩
  have whole : Text.unlines (text.splitOn '\n') = text := List.intercalate_splitOn '\n'
  have lines : text.lines = header :: rest := by
    rw [← split, ← Text.lines_unlines (isLine_of_tight tight), whole]
  have own : ∀ line ∈ header :: rest, Text.CommentFree line := by
    rw [← split]
    exact fun line => free.of_mem_splitOn
  obtain ⟨c, last, visible⟩ := tight header (split ▸ List.mem_cons_self)
  obtain ⟨blanks, header_eq, blank⟩ := Text.exists_eq_blanks_append_trim last visible
  have headed := Text.marks_plain_append (s := "public static ") (by decide) header.trim
  have deeper := (reads_deeper fun line member => own line (List.mem_cons_of_mem _ member)).1
  refine ⟨"ublicstatic", blanks.filter (!Text.isGap ·),
    header.trim.marks ++ rest.flatMap Text.marks, ?_, ?_⟩
  · unfold methodText
    rw [lines]
    dsimp only
    rw [Text.marks_unlines, List.flatMap_cons, flatMap_marks_deeper, headed, List.append_assoc]
    · rfl
    · intro line member
      rcases List.mem_cons.mp member with rfl | later
      · exact (Text.Reads.plain_append ⟨Text.commentFree_trim.mpr (own header List.mem_cons_self),
          rfl⟩ (by decide) (by decide)).free
      · exact deeper line later
  · rw [Text.marks_eq_flatMap_splitOn free, split, List.flatMap_cons, ← List.append_assoc,
      ← Text.marks_plain_append fun c member => Text.isPlain_of_isBlank (blank c member),
      ← header_eq]

private theorem hasCall_methodText {text : Text} (free : text.CommentFree) (tight : Tight text) :
    HasCall (methodText text).marks ↔ HasCall text.marks := by
  obtain ⟨front, front', common, method, function⟩ := exists_marks_methodText free tight
  have code : (methodText text).marks = ('p' :: front).map .code ++ common := method
  rw [code, function, hasCall_code_append, hasCall_code_append]

private theorem startsApart_methodText {text : Text} (free : text.CommentFree)
    (tight : Tight text) :
    StartsApart (methodText text).marks := by
  obtain ⟨front, -, common, method, -⟩ := exists_marks_methodText free tight
  rw [method]
  unfold StartsApart
  simp

private theorem hasCall_extendWith {body merged : Text} (free : merged.CommentFree)
    (apart : StartsApart body.marks) :
    HasCall (extendWith body merged).marks ↔ HasCall merged.marks ∨ HasCall body.marks := by
  unfold extendWith
  by_cases empty : merged = []
  · subst empty
    simp [not_hasCall_nil]
  · have joined : Text.marks (merged ++ "\n\n" ++ body) = merged.marks ++ body.marks := by
      have isGap : ∀ c ∈ ['\n'], Text.isGap c = true := by decide
      have feeds : merged ++ "\n\n" ++ body = merged ++ '\n' :: (['\n'] ++ body) := by simp
      rw [feeds, Text.marks, Text.pieces_append_lineFeed free.endsWithText, marksOf_append,
        marksOf_cons_of_isGapCode (by decide)]
      exact congrArg (_ ++ ·) (Text.marks_gap_append isGap body)
    rw [if_neg empty, joined, hasCall_append apart]

private theorem forall_mem_amend {name body : Text} {functions : List FunctionText}
    (free : ∀ f ∈ functions, f.body.CommentFree) (apart : StartsApart body.marks) :
    (∀ f ∈ FunctionText.amend name (extendWith body) functions, ¬HasCall f.body.marks) ↔
      (∀ f ∈ functions, ¬HasCall f.body.marks) ∧ ¬HasCall body.marks := by
  induction functions with
  | nil => simp [FunctionText.amend, extendWith]
  | cons f functions ih =>
    unfold FunctionText.amend
    by_cases same : f.name = name
    · rw [if_pos same, List.forall_mem_cons, List.forall_mem_cons,
        hasCall_extendWith (free f List.mem_cons_self) apart]
      tauto
    · rw [if_neg same, List.forall_mem_cons, List.forall_mem_cons,
        ih fun g later => free g (List.mem_cons_of_mem _ later), and_assoc]

/-! ### Items -/

private theorem forall_mem_foldl_addFunction {items : List Item} (laid : ∀ item ∈ items, item.Laid)
    {functions : List FunctionText} (free : ∀ f ∈ functions, f.body.CommentFree) :
    (∀ f ∈ items.foldl Item.addFunction functions, ¬HasCall f.body.marks) ↔
      (∀ f ∈ functions, ¬HasCall f.body.marks) ∧
        ∀ text ∈ items.filterMap Item.functionText?, ¬HasCall text.marks := by
  induction items generalizing functions with
  | nil => simp
  | cons item items ih =>
    have rest : ∀ item ∈ items, item.Laid := fun item later =>
      laid item (List.mem_cons_of_mem _ later)
    rw [List.foldl_cons]
    cases item with
    | function text =>
      obtain ⟨textFree, tight⟩ := laid _ List.mem_cons_self
      rw [addFunction_function, ih rest,
        forall_mem_amend free (startsApart_methodText textFree tight),
        hasCall_methodText textFree tight, and_assoc]
      · simp [Item.functionText?]
      · exact (exists_of_amend free (reads_methodText textFree)).1
    | importLine => exact ih rest free
    | globalLine => exact ih rest free
    | statement => exact ih rest free

/-! ### Statements -/

/-- Whether no format call is left in the user code of a script. -/
structure CallFree (script : Script) : Prop where
  entryBody : script.entryBody.expandFirst = .ok none
  functions : ∀ f ∈ script.functions, f.body.expandFirst = .ok none

/-- Layout neither makes nor breaks a call: the script is free of calls if its statements, one
line each, and its functions are. -/
theorem callFree_ofItems_iff (catalog : Catalog) {items : List Item}
    (laid : ∀ item ∈ items, item.Laid) :
    (ofItems catalog items).CallFree ↔
      (Text.unlines (statements items)).expandFirst = .ok none ∧
        ∀ text ∈ items.filterMap Item.functionText?, text.expandFirst = .ok none := by
  have entry : (ofItems catalog items).entryBody.expandFirst = .ok none ↔
      (Text.unlines (statements items)).expandFirst = .ok none := by
    rw [Text.expandFirst_eq_ok_none_iff, Text.expandFirst_eq_ok_none_iff]
    exact not_congr (Text.hasCall_indent (isLine_of_mem_statements laid) 2)
  have functions : (∀ f ∈ (ofItems catalog items).functions, f.body.expandFirst = .ok none) ↔
      ∀ text ∈ items.filterMap Item.functionText?, text.expandFirst = .ok none := by
    simp only [Text.expandFirst_eq_ok_none_iff]
    have none : ∀ f ∈ ([] : List FunctionText), f.body.CommentFree := nofun
    have folded := forall_mem_foldl_addFunction laid none
    rw [and_iff_right nofun] at folded
    exact folded
  constructor
  · intro free
    exact ⟨entry.mp free.entryBody, functions.mp free.functions⟩
  · rintro ⟨noStatement, noFunction⟩
    exact ⟨entry.mpr noStatement, functions.mpr noFunction⟩

/-! ### Calls on one line -/

/-- Whether the code of an item has a call in it. -/
def Item.HasCall : Item → Prop
  | .importLine _ => False
  | .globalLine line => ScriptLoom.HasCall line.marks
  | .function text => ScriptLoom.HasCall text.marks
  | .statement text => ScriptLoom.HasCall text.marks

private theorem hasCall_trailingItems {front after : Text}
    (code : TrimmedLine (front ++ after.takeWhile (· ≠ '\n'))) :
    (∃ item ∈ trailingItems after, item.HasCall) ↔
      HasCall (Text.marks (after.takeWhile (· ≠ '\n'))) := by
  obtain ⟨blanks, whole, blank⟩ := code.exists_eq_blanks_append_trim
  have leads : Text.LeadsTo (after.takeWhile (· ≠ '\n'))
      (Text.trim (after.takeWhile (· ≠ '\n'))) := by
    have behind := Text.LeadsTo.of_plain
      (fun c member => Text.isPlain_of_isBlank (blank c member))
      (fun c member => isBrace_of_isBlank c (blank c member))
      (Text.trim (after.takeWhile (· ≠ '\n')))
    rwa [← whole] at behind
  rw [leads.hasCall_iff]
  unfold trailingItems
  dsimp only
  generalize Text.trim (after.takeWhile (· ≠ '\n')) = trailing
  by_cases empty : trailing = []
  · simp [empty, not_hasCall_nil]
  · simp [empty, Item.HasCall]

private theorem not_hasCall_importLine {line : Text} (code : CodeLine line)
    (starts : line.startsWith Keyword.imports = true) : ¬HasCall line.marks := by
  have free := code.free
  rw [← List.append_nil line] at free
  obtain ⟨silent, -⟩ := Text.silent_of_unquoted free fun c member =>
    isBracket_of_isBraceOrQuote (code.plain.imports starts c member)
  exact silent.not_hasCall

/-- A call on the lines that a function is cut from is a call of the function or of what follows. -/
theorem hasCall_unlines_of_function_cutBlock? {t block after : Text}
    (starts : t.startsWith Keyword.function = true) (cut : t.cutBlock? = some (block, after)) :
    HasCall t.marks ↔ HasCall (Text.marks (block.drop Keyword.function.length)) ∨
      HasCall after.marks := by
  obtain ⟨text, header, inside, rfl, -, parts, body, -, -⟩ :=
    exists_of_function_cutBlock? starts cut
  have function : text.marks = marksOf (header ++ .code '{' :: inside) ++ [.code '}'] := by
    have closed : text.pieces = (header ++ .code '{' :: inside) ++ [.code '}'] := by
      rw [body]
      simp
    rw [Text.marks, closed, marksOf_append]
    rfl
  -- The closing brace of the function stands between the two sides.
  have apart : ∀ marks, HasCall (marksOf (header ++ .code '{' :: inside) ++ .code '}' :: marks) ↔
      HasCall (marksOf (header ++ .code '{' :: inside)) ∨ HasCall marks := by
    intro marks
    rw [hasCall_append (startsApart_code (by decide) (by decide)), hasCall_cons]
    simp
  rw [List.drop_left, Text.marks, parts, marksOf_append, marksOf_append, marksOf_map_code,
    hasCall_code_append, ← Text.marks, ← Text.marks, function, apart, List.append_assoc]
  rw [List.singleton_append, apart]
  simp [not_hasCall_nil]

/-- One step: a call on one of the lines taken is a call of an item taken off them. -/
theorem Takes.hasCall_iff {lines rest : List (Nat × Text)} {items : List Item}
    (takes : Takes lines items rest) (code : ∀ line ∈ lines.map (·.2), CodeLine line)
    (apart : ∀ line ∈ lines.map (·.2), StartsApart (Text.marks line)) :
    (∃ line ∈ lines.map (·.2), HasCall (Text.marks line)) ↔
      (∃ item ∈ items, item.HasCall) ∨ ∃ line ∈ rest.map (·.2), HasCall (Text.marks line) := by
  cases takes with
  | @importLine n line rest starts =>
    have silent := not_hasCall_importLine (code line List.mem_cons_self) starts
    simp [Item.HasCall, silent]
  | @globalLine n line rest starts => simp [Item.HasCall]
  | @statement n line rest => simp [Item.HasCall]
  | @function n line block after rest starts cut =>
    rw [List.map_cons] at code apart ⊢
    have begins := startsWith_unlines starts (rest.map (·.2))
    obtain ⟨text, -, -, -, whole, parts, -, -, -⟩ := exists_of_function_cutBlock? begins cut
    have free : ∀ l ∈ line :: rest.map (·.2), Text.CommentFree l := fun l member =>
      (code l member).free
    have inLine : ∀ l ∈ line :: rest.map (·.2), '\n' ∉ l := fun l member => (code l member).inLine
    have afterFree : after.CommentFree := by
      intro p member
      apply (Text.Reads.unlines free).free p
      rw [parts]
      exact List.mem_append_right _ (List.mem_append_right _ member)
    obtain ⟨front, ending⟩ := Text.exists_mem_splitOn_append block after
    have lines : (Text.unlines (line :: rest.map (·.2))).splitOn '\n' = line :: rest.map (·.2) :=
      List.splitOn_intercalate '\n' inLine (by simp)
    rw [← whole, lines] at ending
    have later : ∀ l ∈ (rest.map (·.2)).drop (block.count '\n'), StartsApart (Text.marks l) :=
      fun l member => apart l (List.mem_cons_of_mem _ (List.mem_of_mem_drop member))
    have behind : HasCall after.marks ↔
        (∃ item ∈ trailingItems after, item.HasCall) ∨
          ∃ l ∈ (rest.map (·.2)).drop (block.count '\n'), HasCall (Text.marks l) := by
      rw [Text.marks_eq_flatMap_splitOn afterFree, Text.splitOn_eq_cons, List.flatMap_cons,
        tail_splitOn_of_unlines inLine whole, hasCall_append (startsApart_flatMap later),
        hasCall_flatMap later, hasCall_trailingItems (code _ ending).toTrimmedLine]
    calc (∃ l ∈ line :: rest.map (·.2), HasCall (Text.marks l))
        ↔ HasCall (Text.unlines (line :: rest.map (·.2))).marks := by
          rw [Text.marks_unlines free, hasCall_flatMap apart]
      _ ↔ HasCall (Text.marks (block.drop Keyword.function.length)) ∨ HasCall after.marks :=
          hasCall_unlines_of_function_cutBlock? begins cut
      _ ↔ _ := by
          rw [behind, ← or_assoc, List.map_drop]
          simp [Item.HasCall]

private theorem Taken.hasCall_iff {lines : List (Nat × Text)} {items : List Item}
    (taken : Taken lines items) (code : ∀ line ∈ lines.map (·.2), CodeLine line)
    (apart : ∀ line ∈ lines.map (·.2), StartsApart (Text.marks line)) :
    (∃ line ∈ lines.map (·.2), HasCall (Text.marks line)) ↔ ∃ item ∈ items, item.HasCall := by
  induction taken with
  | nil => simp
  | step takes later ih =>
    have left := (takes.isSuffix.map Prod.snd).subset
    rw [takes.hasCall_iff code apart, ih (fun line member => code line (left member))
      fun line member => apart line (left member)]
    simp only [List.mem_append, or_and_right, exists_or]

/-- The call of an item is one of its statement or of its function. -/
theorem Item.Sound.hasCall_iff {item : Item} (sound : item.Sound) (items : List Item)
    (index : Nat) :
    item.HasCall ↔
      (∃ text, finalStatement? items item index = some text ∧ ScriptLoom.HasCall text.marks) ∨
        ∃ text, item.functionText? = some text ∧ ScriptLoom.HasCall text.marks := by
  cases item with
  | importLine => simp [Item.HasCall, Item.functionText?, finalStatement?, Item.statement?]
  | function text => simp [Item.HasCall, Item.functionText?, finalStatement?, Item.statement?]
  | statement text => simp [Item.HasCall, Item.functionText?, finalStatement?, Item.statement?]
  | globalLine line =>
    obtain ⟨code, starts⟩ := sound
    cases made : finalStatement? items (.globalLine line) index with
    | none =>
      have silent := (silent_of_finalStatement?_eq_none code starts made).not_hasCall
      simp [Item.HasCall, Item.functionText?, silent]
    | some text =>
      obtain ⟨value, -, lineLeads, textLeads⟩ := leadsTo_finalStatement? code starts made
      simp [Item.HasCall, Item.functionText?, lineLeads.hasCall_iff, textLeads.hasCall_iff]

private theorem exists_hasCall_iff {items : List Item} (sound : ∀ item ∈ items, item.Sound) :
    (∃ item ∈ items, item.HasCall) ↔
      (∃ text ∈ statements items, HasCall text.marks) ∨
        ∃ text ∈ items.filterMap Item.functionText?, HasCall text.marks := by
  constructor
  · rintro ⟨item, member, call⟩
    obtain ⟨index, place⟩ := List.mem_iff_getElem?.mp member
    have listed : (item, index) ∈ items.zipIdx := List.mem_zipIdx_iff_getElem?.mpr place
    rcases ((sound item member).hasCall_iff items index).mp call with
      ⟨text, made, here⟩ | ⟨text, made, here⟩
    · exact .inl ⟨text, List.mem_filterMap.mpr ⟨(item, index), listed, made⟩, here⟩
    · exact .inr ⟨text, List.mem_filterMap.mpr ⟨item, member, made⟩, here⟩
  · rintro (⟨text, member, here⟩ | ⟨text, member, here⟩)
    · obtain ⟨⟨item, index⟩, listed, made⟩ := List.mem_filterMap.mp member
      have inItems := List.fst_mem_of_mem_zipIdx listed
      have own := (sound item inItems).hasCall_iff items index
      exact ⟨item, inItems, own.mpr (.inl ⟨text, made, here⟩)⟩
    · obtain ⟨item, inItems, made⟩ := List.mem_filterMap.mp member
      have own := (sound item inItems).hasCall_iff items 0
      exact ⟨item, inItems, own.mpr (.inr ⟨text, made, here⟩)⟩

private theorem hasCall_unlines_statements {items : List Item} (sound : ∀ item ∈ items, item.Sound)
    (apart : ∀ text ∈ statements items, StartsApart (Text.marks text)) :
    HasCall (Text.unlines (statements items)).marks ↔
      ∃ text ∈ statements items, HasCall (Text.marks text) := by
  have free : ∀ text ∈ statements items, Text.CommentFree text := by
    intro text member
    obtain ⟨pair, listed, made⟩ := List.mem_filterMap.mp member
    exact ((reads_finalStatement? (sound_of_mem_zipIdx sound listed) pair.2).1 text made).free
  rw [Text.marks_unlines free, hasCall_flatMap apart]

/-- Where no line goes on with a call of the line before, the calls of the lines of code are those
of the text without its comments. -/
theorem expandFirst_withoutComments_iff {r : Text}
    (apart : ∀ line ∈ (codeLines r).map (·.2), StartsApart line.marks) :
    r.withoutComments.expandFirst = .ok none ↔
      ∀ line ∈ (codeLines r).map (·.2), line.expandFirst = .ok none := by
  simp only [Text.expandFirst_eq_ok_none_iff]
  have nothing : StartsApart (Text.marks []) ∧ ¬HasCall (Text.marks []) := by
    rw [Text.marks_nil]
    exact ⟨startsApart_nil, not_hasCall_nil⟩
  have trimmed : ∀ part ∈ r.withoutComments.splitOn '\n',
      StartsApart (Text.marks (Text.trim part)) :=
    (forall_mem_codeLines_iff nothing.1 r).mp apart
  have raw : ∀ part ∈ r.withoutComments.splitOn '\n', StartsApart (Text.marks part) :=
    fun part member => Text.startsApart_of_trim (trimmed part member)
  have lines : (∀ line ∈ (codeLines r).map (·.2), ¬HasCall (Text.marks line)) ↔
      ∀ part ∈ r.withoutComments.splitOn '\n', ¬HasCall (Text.marks (Text.trim part)) :=
    forall_mem_codeLines_iff nothing.2 r
  simp only [Text.hasCall_trim] at lines
  rw [lines, Text.marks_eq_flatMap_splitOn (Text.commentFree_withoutComments r),
    hasCall_flatMap raw]
  simp only [not_exists, not_and]

/-- **The calls that survive.** The expansion of a script without problems has no format call, but
comments and the blanks at the ends of lines are dropped, and imports, globals and functions are
taken out from between the statements, only afterwards. No call is left in the user code exactly if
this puts none together: neither in the statements, one line each, nor in a function. Where no line
goes on with a percent sign or a parenthesis, and import lines and declarators have no quotes, that
is the case exactly if the expansion has no call once its comments are dropped; so a script without
comments keeps none. -/
theorem callFree_iff {text r : Text} {catalog : Catalog} {script : Script}
    (quiet : (problemsIn text catalog).isEmpty = true) (expanded : text.expandAll = .ok r)
    (taken : ofText r catalog = .ok script) :
    r.expandFirst = .ok none ∧ ∃ items, Taken (codeLines r) items ∧
      (script.CallFree ↔ (Text.unlines (statements items)).expandFirst = .ok none ∧
        ∀ function ∈ items.filterMap Item.functionText?, function.expandFirst = .ok none) ∧
      ((∀ line ∈ (codeLines text).map (·.2), PlainLine line) →
        (∀ line ∈ (codeLines r).map (·.2) ++ statements items, StartsApart line.marks) →
        (script.CallFree ↔ r.withoutComments.expandFirst = .ok none) ∧
          (text.CommentFree → script.CallFree)) := by
  have settled := Text.settled_of_problemsIn quiet
  have step : ∀ {s next : Text}, s.Settled ∧ (text.CommentFree → s.CommentFree) →
      s.expandFirst = .ok (some next) → next.Settled ∧ (text.CommentFree → next.CommentFree) :=
    fun both expanded => ⟨both.1.of_expandFirst expanded,
      fun free => (both.2 free).of_expandFirst both.1 expanded⟩
  obtain ⟨⟨-, bare⟩, done⟩ := Text.of_expandAll step ⟨settled, id⟩ expanded
  obtain ⟨items, read, rfl⟩ := exists_of_ofText taken
  have parts := callFree_ofItems_iff catalog
    (read.laid fun line member => trimmedLine_of_mem_codeLines member)
  refine ⟨done, items, read, parts, ?_⟩
  intro plain apart
  obtain ⟨-, plain'⟩ := (Text.plainLines_iff_codeLines.mpr plain).of_expandAll settled expanded
  have code : ∀ line ∈ (codeLines r).map (·.2), CodeLine line := fun line member =>
    ⟨trimmedLine_of_mem_codeLines member, Text.plainLines_iff_codeLines.mp plain' line member⟩
  obtain ⟨sound, -⟩ := read.braces_eq code
  have linesApart : ∀ line ∈ (codeLines r).map (·.2), StartsApart (Text.marks line) :=
    fun line member => apart line (List.mem_append_left _ member)
  have lines := (read.hasCall_iff code linesApart).trans (exists_hasCall_iff sound)
  rw [← hasCall_unlines_statements sound fun line member =>
    apart line (List.mem_append_right _ member)] at lines
  have whole : (ofItems catalog items).CallFree ↔ r.withoutComments.expandFirst = .ok none := by
    rw [parts, expandFirst_withoutComments_iff linesApart]
    simp only [Text.expandFirst_eq_ok_none_iff]
    rw [← not_iff_not] at lines
    simpa only [not_or, not_exists, not_and] using lines.symm
  refine ⟨whole, fun free => whole.mpr ?_⟩
  rwa [(bare free).withoutComments_eq]

/-- A call in a function is expanded, and one in a comment goes with the comment. -/
theorem callFree_of_remark :
    let text : Text := "func void f() \x7b\ns = \"%s\" % (b); // \"%s\" % (c)\n\x7d"
    (problemsIn text .empty).isEmpty = true ∧
      ∃ r script, text.expandAll = .ok r ∧ ofText r .empty = .ok script ∧ script.CallFree := by
  intro text
  have quiet : (problemsIn text .empty).isEmpty = true := by decide +kernel
  have expanded : text.expandAll = .ok ("func void f() \x7b\ns = \"%s\"" ++
      FormatCall.substitution "b" ++ "; // \"%s\" % (c)\n\x7d") := by
    decide +kernel
  have items : itemsOfLines (codeLines ("func void f() \x7b\ns = \"%s\"" ++
      FormatCall.substitution "b" ++ "; // \"%s\" % (c)\n\x7d")) =
        .ok [.function
          ("void f() \x7b\ns = \"%s\"" ++ FormatCall.substitution "b" ++ ";\n\x7d")] := by
    decide +kernel
  have taken : ofText ("func void f() \x7b\ns = \"%s\"" ++ FormatCall.substitution "b" ++
      "; // \"%s\" % (c)\n\x7d") .empty = .ok (ofItems .empty [.function
        ("void f() \x7b\ns = \"%s\"" ++ FormatCall.substitution "b" ++ ";\n\x7d")]) := by
    rw [ofText, items]
    rfl
  obtain ⟨-, items', read, -, source⟩ := callFree_iff quiet expanded taken
  obtain rfl := Except.ok.inj ((itemsOfLines_eq_ok_iff.mpr read).symm.trans items)
  obtain ⟨whole, -⟩ := source (by decide +kernel) (by decide +kernel)
  exact ⟨quiet, _, _, expanded, taken, whole.mpr (by decide +kernel)⟩

/-- A comment between the literal and its percent sign hides the call from the expansion, but is
gone from the entry point. -/
theorem not_callFree_of_comment :
    (problemsIn "s = \"%s\" /* c */ % (b);" .empty).isEmpty = true ∧
      ∃ r script, Text.expandAll "s = \"%s\" /* c */ % (b);" = .ok r ∧
        ofText r .empty = .ok script ∧ ¬script.CallFree := by
  refine ⟨by decide +kernel, "s = \"%s\" /* c */ % (b);", ⟨[], [], [], "\t\ts = \"%s\"  % (b);"⟩,
    by decide +kernel, by decide +kernel, ?_⟩
  intro free
  exact absurd free.entryBody (by decide +kernel)

end Script

end ScriptLoom
