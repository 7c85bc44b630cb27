import ScriptLoom.Proofs.ItemBraces

/-! # The braces of a script taken apart

The items of a script become its parts: overloads are put together under their name, globals turn
into fields, assignments or local declarations, statements are indented. None of this adds or
loses a brace, so the entry body leaves open what the functions close, and imports and fields have
no braces at all (`Script.Level`). Every script made of balanced items is like that
(`Script.level_ofItems`).
-/

namespace ScriptLoom

namespace Script

variable {items : List Item}

/-! ### Functions -/

private theorem reads_tab {line : Text} (free : line.CommentFree) : Text.Reads
    ('\t' :: line) line.braces :=
  Text.Reads.plain_append (s := ['\t']) ⟨free, rfl⟩ (by decide) (by decide)

/-- The lines of a method body, each but the last one tab deeper. -/
theorem reads_deeper {ls : List Text} (free : ∀ line ∈ ls, Text.CommentFree line) :
    (∀ line ∈ ls.dropLast.map ('\t' :: ·) ++ ls.getLast?.toList, Text.CommentFree line) ∧
      (ls.dropLast.map ('\t' :: ·) ++ ls.getLast?.toList).flatMap Text.braces =
        ls.flatMap Text.braces := by
  rcases ls.eq_nil_or_concat' with rfl | ⟨start, last, rfl⟩
  · exact ⟨nofun, rfl⟩
  · have earlier : ∀ line ∈ start, Text.CommentFree line := fun line member =>
      free line (List.mem_append_left _ member)
    rw [List.dropLast_concat, List.getLast?_concat]
    refine ⟨?_, ?_⟩
    · intro line member
      rcases List.mem_append.mp member with deeper | isLast
      · obtain ⟨raw, inStart, rfl⟩ := List.mem_map.mp deeper
        exact (reads_tab (earlier raw inStart)).free
      · exact free line (List.mem_append_right _ isLast)
    · rw [List.flatMap_append, List.flatMap_append, List.flatMap_map]
      exact congrArg (· ++ _)
        (List.flatMap_congr fun line member => (reads_tab (earlier line member)).braces)

/-- A function reads the same as a method. -/
theorem reads_methodText {text : Text} (free : text.CommentFree) :
    (methodText text).Reads text.braces := by
  have reads : text.Reads text.braces := ⟨free, rfl⟩
  unfold methodText
  split
  · next empty =>
    rw [← reads.flatMap_lines, empty]
    exact Text.Silent.reads ⟨Text.pieces_plain (by decide), by decide⟩
  · next header rest whole =>
    have lineFree : ∀ line ∈ header :: rest, Text.CommentFree line := fun line member =>
      free.of_mem_lines (whole ▸ member)
    have first : Text.Reads ("public static " ++ header.trim) header.braces :=
      (Text.Reads.trim ⟨lineFree header List.mem_cons_self, rfl⟩).plain_append (by decide)
        (by decide)
    obtain ⟨deeperFree, deeper⟩ := reads_deeper fun line member =>
      lineFree line (List.mem_cons_of_mem _ member)
    rw [← reads.flatMap_lines, whole, List.flatMap_cons, ← deeper, ← first.braces,
      ← List.flatMap_cons]
    apply Text.Reads.unlines
    intro line member
    rcases List.mem_cons.mp member with rfl | later
    · exact first.free
    · exact deeperFree line later

/-- An overload put behind those of its name. -/
def extendWith (body merged : Text) : Text :=
  if merged = [] then body else merged ++ "\n\n" ++ body

/-- A function is added under the name of its header. -/
theorem addFunction_function (functions : List FunctionText) (text : Text) :
    Item.addFunction functions (.function text) =
      FunctionText.amend ((methodText text).headerName?.getD []) (extendWith (methodText text))
        functions :=
  rfl

private theorem reads_extendWith {body merged word : Text} (own : body.Reads word)
    (free : merged.CommentFree) : (extendWith body merged).Reads (merged.braces ++ word) := by
  unfold extendWith
  split
  · next empty =>
    rw [empty, Text.Reads.nil.braces]
    exact own
  · have feed : Text.Reads (['\n'] ++ body) word := own.blanks_append (by decide)
    have merges := Text.Reads.append_lineFeed ⟨free, rfl⟩ feed
    rw [List.append_assoc]
    exact merges

/-- Another function under a name has its braces put between those of the functions before. -/
theorem exists_of_amend {name body word : Text} {functions : List FunctionText}
    (free : ∀ f ∈ functions, f.body.CommentFree) (own : body.Reads word) :
    (∀ f ∈ FunctionText.amend name (extendWith body) functions, f.body.CommentFree) ∧
      ∃ u v, functions.flatMap (·.body.braces) = u ++ v ∧
        (FunctionText.amend name (extendWith body) functions).flatMap (·.body.braces) =
          u ++ (word ++ v) := by
  induction functions with
  | nil =>
    have added := reads_extendWith own Text.Reads.nil.free
    refine ⟨?_, [], [], rfl, ?_⟩
    · intro f member
      obtain rfl := List.mem_singleton.mp member
      exact added.free
    · simp [FunctionText.amend, added.braces, Text.Reads.nil.braces]
  | cons f functions ih =>
    have rest : ∀ g ∈ functions, g.body.CommentFree := fun g later =>
      free g (List.mem_cons_of_mem _ later)
    unfold FunctionText.amend
    by_cases same : f.name = name
    · have added := reads_extendWith own (free f List.mem_cons_self)
      rw [if_pos same]
      refine ⟨?_, f.body.braces, functions.flatMap (·.body.braces), by simp, ?_⟩
      · intro g member
        rcases List.mem_cons.mp member with rfl | later
        · exact added.free
        · exact rest g later
      · simp [added.braces]
    · obtain ⟨restFree, u, v, before, after⟩ := ih rest
      rw [if_neg same]
      refine ⟨?_, f.body.braces ++ u, v, by simp [before], by simp [after]⟩
      intro g member
      rcases List.mem_cons.mp member with rfl | later
      · exact free g List.mem_cons_self
      · exact restFree g later

private theorem nesting_foldl_addFunction (sound : ∀ item ∈ items, item.Sound)
    {functions : List FunctionText} {before drop : Nat}
    (free : ∀ f ∈ functions, f.body.CommentFree)
    (merged : nesting '{' '}' before (functions.flatMap (·.body.braces)) = some 0)
    (closes : nesting '{' '}' drop ((items.filterMap Item.functionText?).flatMap Text.braces) =
      some 0) :
    (∀ f ∈ items.foldl Item.addFunction functions, f.body.CommentFree) ∧
      nesting '{' '}' (before + drop)
        ((items.foldl Item.addFunction functions).flatMap (·.body.braces)) = some 0 := by
  induction items generalizing functions before drop with
  | nil =>
    obtain rfl : drop = 0 := by simpa using closes
    exact ⟨free, merged⟩
  | cons item items ih =>
    have further : ∀ item ∈ items, item.Sound := fun item later =>
      sound item (List.mem_cons_of_mem _ later)
    cases item with
    | function text =>
      obtain ⟨textFree, own, closed⟩ := sound (.function text) List.mem_cons_self
      obtain ⟨middle, first, rest⟩ := nesting_append_eq_some.mp closes
      have level : drop = middle + own := eq_add_of_nesting (by decide) closed first
      rw [List.foldl_cons, addFunction_function]
      generalize (methodText text).headerName?.getD [] = name
      obtain ⟨free', u, v, split, amended⟩ := exists_of_amend free (reads_methodText textFree)
      rw [split] at merged
      have merged' := nesting_insert closed merged
      rw [← amended] at merged'
      have total := ih further free' merged' rest
      rwa [Nat.add_assoc, Nat.add_comm own, ← level] at total
    | importLine line => exact ih further free merged closes
    | globalLine line => exact ih further free merged closes
    | statement text => exact ih further free merged closes

/-- The functions of a script close what the function items close. -/
theorem nesting_functionsOf (sound : ∀ item ∈ items, item.Sound) {drop : Nat}
    (closes : nesting '{' '}' drop ((items.filterMap Item.functionText?).flatMap Text.braces) =
      some 0) :
    (∀ f ∈ functionsOf items, f.body.CommentFree) ∧
      nesting '{' '}' drop ((functionsOf items).flatMap (·.body.braces)) = some 0 := by
  have none : ∀ f ∈ ([] : List FunctionText), f.body.CommentFree := nofun
  have folded := nesting_foldl_addFunction sound none nesting_nil closes
  rwa [Nat.zero_add] at folded

/-! ### Statements -/

private theorem leadsTo_assignment {g : Global} {line : Text} (faithful : g.Faithful line)
    (value : Text) :
    (assignment g value).LeadsTo value := by
  unfold assignment
  split
  · have created := faithful.type.leadsTo " " (by decide) (by decide) value
    have assigned := faithful.name.leadsTo " = new " (by decide) (by decide)
      (g.type ++ " " ++ value)
    have leads := assigned.trans created
    simpa only [List.append_assoc] using leads
  · exact faithful.name.leadsTo " = " (by decide) (by decide) value

private theorem leadsTo_localDeclaration {g : Global} {line : Text} (faithful : g.Faithful line)
    (value : Text) : (g.type ++ " " ++ g.name ++ " = " ++ value).LeadsTo value := by
  have assigned := faithful.name.leadsTo " = " (by decide) (by decide) value
  have declared := faithful.type.leadsTo " " (by decide) (by decide) (g.name ++ " = " ++ value)
  have leads := declared.trans assigned
  simpa only [List.append_assoc] using leads

/-- The statement of a global is an assignment or a local declaration of its initializer. -/
theorem exists_of_finalStatement?_globalLine {line text : Text} {index : Nat}
    (made : finalStatement? items (.globalLine line) index = some text) :
    ∃ value, (Global.ofLine line).initializer = some value ∧
      (text = assignment (Global.ofLine line) value ∨
        text = (Global.ofLine line).type ++ " " ++ (Global.ofLine line).name ++ " = " ++
          value) := by
  simp only [finalStatement?, Item.statement?] at made
  split at made
  · obtain ⟨value, given, same⟩ := Option.map_eq_some_iff.mp made
    exact ⟨value, given, .inl same.symm⟩
  · obtain ⟨value, given, same⟩ := Option.map_eq_some_iff.mp made
    exact ⟨value, given, .inr same.symm⟩

/-- A global and the statement that is made of it both lead to the initializer. -/
theorem leadsTo_finalStatement? {line text : Text} {index : Nat} (code : CodeLine line)
    (starts : line.startsWith Keyword.global = true)
    (made : finalStatement? items (.globalLine line) index = some text) :
    ∃ value, (Global.ofLine line).initializer = some value ∧ line.LeadsTo value ∧
      text.LeadsTo value := by
  have faithful := Global.faithful_ofLine code starts
  obtain ⟨value, given, rfl | rfl⟩ := exists_of_finalStatement?_globalLine made
  · exact ⟨value, given, faithful.initializer value given, leadsTo_assignment faithful value⟩
  · exact ⟨value, given, faithful.initializer value given,
      leadsTo_localDeclaration faithful value⟩

/-- A global of which no statement is made has no initializer. -/
theorem initializer_of_finalStatement?_eq_none {line : Text} {index : Nat}
    (missing : finalStatement? items (.globalLine line) index = none) :
    (Global.ofLine line).initializer = none := by
  simp only [finalStatement?, Item.statement?] at missing
  split at missing <;> exact Option.map_eq_none_iff.mp missing

/-- A global of which no statement is made is silent. -/
theorem silent_of_finalStatement?_eq_none {line : Text} {index : Nat} (code : CodeLine line)
    (starts : line.startsWith Keyword.global = true)
    (missing : finalStatement? items (.globalLine line) index = none) : line.Silent :=
  (Global.faithful_ofLine code starts).bare (initializer_of_finalStatement?_eq_none missing)

/-- The statement of an item has the braces of the item that stay among the statements. -/
theorem reads_finalStatement? {item : Item} (sound : item.Sound) (index : Nat) :
    (∀ text, finalStatement? items item index = some text → text.Reads item.statementBraces) ∧
      (finalStatement? items item index = none → item.statementBraces = []) := by
  cases item with
  | importLine line => exact ⟨nofun, fun _ => rfl⟩
  | function text => exact ⟨nofun, fun _ => rfl⟩
  | statement text =>
    refine ⟨?_, nofun⟩
    intro result same
    cases same
    exact ⟨sound, rfl⟩
  | globalLine line =>
    obtain ⟨code, starts⟩ := sound
    refine ⟨?_, ?_⟩
    · intro text made
      obtain ⟨value, -, lineLeads, textLeads⟩ := leadsTo_finalStatement? code starts made
      exact textLeads.reads_iff.mpr (lineLeads.reads_iff.mp ⟨code.free, rfl⟩)
    · intro missing
      exact (silent_of_finalStatement?_eq_none code starts missing).reads.braces

/-! ### The parts of a script -/

/-- Numbered items are as sound as the items. -/
theorem sound_of_mem_zipIdx (sound : ∀ item ∈ items, item.Sound) {pair : Item × Nat}
    (member : pair ∈ items.zipIdx) : pair.1.Sound :=
  sound pair.1 (List.fst_mem_of_mem_zipIdx member)

private theorem reads_entryBody (catalog : Catalog) (sound : ∀ item ∈ items, item.Sound) :
    (ofItems catalog items).entryBody.Reads (items.flatMap Item.statementBraces) := by
  have made : ∀ pair ∈ items.zipIdx, ∀ text,
      finalStatement? items pair.1 pair.2 = some text → text.Reads pair.1.statementBraces :=
    fun pair member => (reads_finalStatement? (sound_of_mem_zipIdx sound member) pair.2).1
  have missing : ∀ pair ∈ items.zipIdx,
      finalStatement? items pair.1 pair.2 = none → pair.1.statementBraces = [] :=
    fun pair member => (reads_finalStatement? (sound_of_mem_zipIdx sound member) pair.2).2
  have numbers : (items.zipIdx.flatMap fun pair => pair.1.statementBraces) =
      items.flatMap Item.statementBraces := by
    conv_rhs => rw [← List.zipIdx_map_fst 0 items, List.flatMap_map]
  rw [← numbers]
  exact (Text.Reads.unlines_filterMap made missing).indent 2

private theorem reads_imports (catalog : Catalog) (sound : ∀ item ∈ items, item.Sound) :
    (Text.unlines ((ofItems catalog items).imports.map (·.text))).Reads [] := by
  have made : ∀ item ∈ items, ∀ text,
      (Item.import? catalog item).map (·.text) = some text → text.Reads [] := by
    intro item member text result
    cases item with
    | importLine line =>
      obtain ⟨code, starts⟩ := sound _ member
      have silent : line.braces = [] := Text.braces_eq_nil fun c inLine =>
        (isBracket_of_isBraceOrQuote (code.plain.imports starts c inLine)).1
      simp only [Item.import?] at result
      split at result
      · cases result
      · cases result
        exact ⟨code.free, silent⟩
    | globalLine => cases result
    | function => cases result
    | statement => cases result
  have read := Text.Reads.unlines_filterMap_nil made
  have texts : (ofItems catalog items).imports.map (·.text) =
      items.filterMap fun item => (Item.import? catalog item).map (·.text) :=
    List.map_filterMap
  rwa [← texts] at read

private theorem reads_globals (catalog : Catalog) (sound : ∀ item ∈ items, item.Sound) :
    (Text.unlines ((ofItems catalog items).globals.map (·.text))).Reads [] := by
  have made : ∀ pair ∈ items.zipIdx, ∀ text,
      (field? items pair.1 pair.2).map (·.text) = some text → text.Reads [] := by
    rintro ⟨item, index⟩ member text result
    have own := sound_of_mem_zipIdx sound member
    cases item with
    | globalLine line =>
      have faithful := Global.faithful_ofLine own.1 own.2
      simp only [field?] at result
      split at result
      · cases result
        have named := (faithful.name.leadsTo ";" (by decide) (by decide) []).reads_iff.mpr .nil
        have typed := (faithful.type.leadsTo " " (by decide) (by decide) _).reads_iff.mpr named
        have field : Text.Reads ("public static " ++ _) [] :=
          typed.plain_append (by decide) (by decide)
        simpa only [List.append_assoc, List.append_nil] using field
      · cases result
    | importLine => cases result
    | function => cases result
    | statement => cases result
  have read := Text.Reads.unlines_filterMap_nil made
  have texts : (ofItems catalog items).globals.map (·.text) =
      items.zipIdx.filterMap fun pair => (field? items pair.1 pair.2).map (·.text) :=
    List.map_filterMap
  rwa [← texts] at read

/-- A script whose statements leave open what its functions close, with no braces elsewhere. -/
structure Level (script : Script) : Prop where
  imports : (Text.unlines (script.imports.map (·.text))).Reads []
  globals : (Text.unlines (script.globals.map (·.text))).Reads []
  functions : ∀ f ∈ script.functions, f.body.CommentFree
  entryBody : script.entryBody.CommentFree
  braces : ∃ drop, nesting '{' '}' 0 script.entryBody.braces = some drop ∧
    nesting '{' '}' drop (script.functions.flatMap (·.body.braces)) = some 0

/-- Balanced items make a level script. -/
theorem level_ofItems (catalog : Catalog) (sound : ∀ item ∈ items, item.Sound)
    (balanced : nesting '{' '}' 0 (items.flatMap Item.braces) = some 0) :
    (ofItems catalog items).Level := by
  obtain ⟨drop, statements, closes⟩ := exists_nesting_of_items sound balanced
  obtain ⟨free, functions⟩ := nesting_functionsOf sound closes
  have body := reads_entryBody catalog sound
  rw [Nat.zero_add, ← body.braces] at statements
  exact ⟨reads_imports catalog sound, reads_globals catalog sound, free, body.free,
    drop, statements, functions⟩

end Script

end ScriptLoom
