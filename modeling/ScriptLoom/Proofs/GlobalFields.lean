import ScriptLoom.Proofs.LineAccount
import ScriptLoom.Proofs.Lists
import ScriptLoom.Proofs.NameRuns

/-! # Globals with a field and globals without

For every top-level construct it is settled whether its global keeps a field. What a construct gives
the script depends on itself and on its own settlement only (`Script.Settled.fields`,
`Script.Settled.statements`), and the settlement of a global depends on the functions and on the
statements of the other constructs as they are before any global becomes a local
(`Script.exists_settles`).
-/

namespace ScriptLoom

/-- Whether a name stands among the code of a text, not as part of a longer one. -/
def Text.HasName (t name : Text) : Prop :=
  ∃ front behind, t.pieces = front ++ (name.map .code ++ behind) ∧
    Identifier.Between ⟨(spell front).reverse, name⟩ front behind

/-- A text mentions a name exactly if the name stands among its code. -/
theorem Text.mentions_iff_hasName {t name : Text} : t.mentions name = true ↔ t.HasName name := by
  rw [mentions, List.contains_iff_mem, names, List.mem_map]
  constructor
  · rintro ⟨⟨before, _⟩, member, rfl⟩
    obtain ⟨front, behind, whole, between⟩ := mem_identifiers.mp member
    obtain rfl : before = (spell front).reverse := between.before
    exact ⟨front, behind, whole, between⟩
  · rintro ⟨front, behind, whole, between⟩
    exact ⟨_, mem_identifiers.mpr ⟨front, behind, whole, between⟩, rfl⟩

namespace Script

/-! ### Use by other items -/

/-- An item is used by the functions or by the statement of an item before or after it. -/
theorem isUsed_iff {before after : List Item} {item : Item} {name : Text} :
    isUsed (before ++ item :: after) before.length name = true ↔
      (∃ f ∈ functionsOf (before ++ item :: after), f.body.HasName name) ∨
        ∃ s ∈ (before ++ after).filterMap Item.statement?, Text.HasName s name := by
  let naming (item : Item) : Bool := item.statement?.any (·.mentions name)
  have others : ((before ++ item :: after).zipIdx.any fun entry =>
      entry.2 != before.length && naming entry.1) = (before ++ after).any naming := by
    rw [List.zipIdx_append, List.any_append, List.any_append, any_zipIdx_ne before (by simp),
      List.zipIdx_cons, List.any_cons, any_zipIdx_ne after (by simp)]
    simp
  change ((((before ++ item :: after).zipIdx.any fun entry =>
    entry.2 != before.length && naming entry.1) || (functionsOf _).any _) = true) ↔ _
  rw [others, Bool.or_eq_true, Or.comm]
  refine or_congr ?_ ?_
  · simp only [List.any_eq_true, Text.mentions_iff_hasName]
  · simp only [naming, List.any_eq_true, Option.any_eq_true, Text.mentions_iff_hasName,
      List.mem_filterMap]
    constructor
    · rintro ⟨other, member, s, made, named⟩
      exact ⟨s, ⟨other, member, made⟩, named⟩
    · rintro ⟨s, ⟨other, member, made⟩, named⟩
      exact ⟨other, member, s, made, named⟩

/-! ### Settled constructs -/

/-- The statements that a construct leaves as long as its global keeps its field. -/
def Construct.statements : Construct → List Text
  | .importLine _ => []
  | .globalLine line =>
    ((Global.ofLine line).initializer.map (assignment (Global.ofLine line))).toList
  | .function _ trailing => if trailing.trim = [] then [] else [trailing.trim]
  | .statement line => [line]

/-- A construct, and whether its global keeps a field. -/
structure Settled where
  construct : Construct
  kept : Bool

namespace Settled

/-- The fields that a settled construct gives. -/
def fields (s : Settled) : List Declaration :=
  if s.kept then s.construct.field?.toList else []

/-- The statements that a settled construct leaves. A global without a field is declared where its
initializer stands, if its type is known. -/
def statements : Settled → List Text
  | ⟨.globalLine line, false⟩ =>
    let g := Global.ofLine line
    if g.type = [] then (Construct.globalLine line).statements
    else (g.initializer.map fun value => g.type ++ " " ++ g.name ++ " = " ++ value).toList
  | ⟨c, _⟩ => c.statements

end Settled

/-- The text of an entry point with given statements. -/
def entryOf (statements : List Text) : Text :=
  Text.unlines (statements.map ("\t\t" ++ ·))

/-- What follows for a script from the settlement of one of its globals: the global is used by
something else or not, and all that differs is its own field and its own statement. -/
structure Decided (script : Script) (before : List Settled) (g : Global) (kept : Bool)
    (after : List Settled) : Prop where
  used : kept = true ↔ (∃ f ∈ script.functions, f.body.HasName g.name) ∨
    ∃ s ∈ (before ++ after).flatMap (·.construct.statements), Text.HasName s g.name
  fields : script.globals = before.flatMap Settled.fields ++
    ((if kept then [⟨g.name, "public static " ++ g.type ++ " " ++ g.name ++ ";"⟩] else []) ++
      after.flatMap Settled.fields)
  undefined : g.initializer = none → script.entryBody =
    entryOf (before.flatMap Settled.statements ++ after.flatMap Settled.statements)
  initialized : ∀ value, g.initializer = some value → script.entryBody =
    entryOf (before.flatMap Settled.statements ++
      (if !kept then g.type ++ " " ++ g.name ++ " = " ++ value
        else if value.startsWith ['{'] then g.name ++ " = new " ++ g.type ++ " " ++ value
        else g.name ++ " = " ++ value) :: after.flatMap Settled.statements)

/-- Whether the top-level constructs of a text are settled as a script has it. -/
structure Settles (text : Text) (script : Script) (settled : List Settled) : Prop where
  lines : (settled.map (·.construct)).flatMap (·.code.splitOn '\n') = programLines text
  stand : Construct.StandFrom (Text.unlines (programLines text)) 0 (settled.map (·.construct))
  fields : script.globals = settled.flatMap Settled.fields
  statements : script.entryBody = entryOf (settled.flatMap Settled.statements)
  decided : ∀ before line kept after, settled = before ++ ⟨.globalLine line, kept⟩ :: after →
    (Global.ofLine line).type ≠ [] → Decided script before (Global.ofLine line) kept after

/-! ### The settlement of a script -/

/-- Whether a construct whose items start at an index keeps its global. -/
def Construct.isKept (items : List Item) (start : Nat) : Construct → Bool
  | .globalLine line => isUsed items start (Global.ofLine line).name
  | _ => false

/-- Constructs settled, the items of the first one being counted from an index on. -/
def settle (items : List Item) : Nat → List Construct → List Settled
  | _, [] => []
  | start, c :: constructs =>
    ⟨c, c.isKept items start⟩ :: settle items (start + c.items.length) constructs

section Settle

variable (items : List Item) (start : Nat) (constructs : List Construct)

private theorem map_construct_settle : (settle items start constructs).map
    (·.construct) = constructs := by
  induction constructs generalizing start with
  | nil => rfl
  | cons c constructs ih => rw [settle, List.map_cons, ih]

private theorem filterMap_field?_eq :
    (((constructs.flatMap Construct.items).zipIdx start).filterMap
        fun (item, i) => field? items item i) =
      (settle items start constructs).flatMap Settled.fields := by
  induction constructs generalizing start with
  | nil => rfl
  | cons c constructs ih =>
    rw [List.flatMap_cons, List.zipIdx_append, List.filterMap_append, ih, settle,
      List.flatMap_cons]
    congr 1
    cases c with
    | importLine line => rfl
    | globalLine line =>
      by_cases used : isUsed items start (Global.ofLine line).name = true <;>
        simp [Construct.items, Construct.isKept, Settled.fields, Construct.field?, field?, used]
    | function text trailing =>
      rw [Construct.items]
      split <;> rfl
    | statement line => rfl

private theorem filterMap_statement?_items (c : Construct) :
    c.items.filterMap Item.statement? = c.statements := by
  cases c with
  | importLine line => rfl
  | globalLine line =>
    cases given : (Global.ofLine line).initializer <;>
      simp [Construct.items, Construct.statements, Item.statement?, given]
  | function text trailing =>
    rw [Construct.items, Construct.statements]
    split <;> rfl
  | statement line => rfl

private theorem filterMap_finalStatement?_eq :
    (((constructs.flatMap Construct.items).zipIdx start).filterMap
        fun (item, i) => finalStatement? items item i) =
      (settle items start constructs).flatMap Settled.statements := by
  induction constructs generalizing start with
  | nil => rfl
  | cons c constructs ih =>
    rw [List.flatMap_cons, List.zipIdx_append, List.filterMap_append, ih, settle,
      List.flatMap_cons]
    congr 1
    cases c with
    | importLine line => rfl
    | globalLine line =>
      cases given : (Global.ofLine line).initializer <;>
        by_cases used : isUsed items start (Global.ofLine line).name = true <;>
        by_cases typed : (Global.ofLine line).type = [] <;>
        simp [Construct.items, Construct.isKept, Settled.statements, Construct.statements,
          finalStatement?, Item.statement?, used, typed, given]
    | function text trailing =>
      change _ = (Construct.function text trailing).statements
      rw [Construct.items, Construct.statements]
      split <;> rfl
    | statement line => rfl

variable {items start constructs}

private theorem kept_of_settle {before after : List Settled} {c : Construct} {kept : Bool}
    (split : settle items start constructs = before ++ ⟨c, kept⟩ :: after) :
    kept = c.isKept items (start + (before.flatMap (·.construct.items)).length) := by
  induction constructs generalizing start before with
  | nil => simp [settle] at split
  | cons first constructs ih =>
    rw [settle] at split
    cases before with
    | nil =>
      cases split
      rfl
    | cons s before =>
      obtain ⟨rfl, rest⟩ := List.cons.inj split
      rw [ih rest, List.flatMap_cons, List.length_append, Nat.add_assoc]

end Settle

private theorem entryBody_ofItems (catalog : Catalog) {items : List Item}
    (laid : ∀ item ∈ items, item.Laid) :
    (ofItems catalog items).entryBody = entryOf (statements items) := by
  change (Text.unlines (statements items)).indent 2 = _
  rw [Text.indent, Text.lines_unlines (isLine_of_mem_statements laid)]
  rfl

/-- The statement of a global that is settled. -/
theorem statements_globalLine {line : Text} (typed : (Global.ofLine line).type ≠ [])
    (kept : Bool) :
    Settled.statements ⟨.globalLine line, kept⟩ =
      ((Global.ofLine line).initializer.map fun value =>
        if !kept then
          (Global.ofLine line).type ++ " " ++ (Global.ofLine line).name ++ " = " ++ value
        else assignment (Global.ofLine line) value).toList := by
  cases kept with
  | true => rfl
  | false => exact if_neg typed

section Decided

variable {items : List Item} {constructs : List Construct} {before after : List Settled}
  {line : Text} {kept : Bool}

/-- The items around a global that is settled. -/
theorem items_of_settle (split : settle items 0 constructs =
      before ++ ⟨.globalLine line, kept⟩ :: after) :
    constructs.flatMap Construct.items = before.flatMap (·.construct.items) ++
      .globalLine line :: after.flatMap (·.construct.items) := by
  rw [← map_construct_settle items 0 constructs, split, List.map_append, List.flatMap_append,
    List.map_cons, List.flatMap_cons, List.flatMap_map, List.flatMap_map]
  rfl

private theorem kept_iff (split : settle (constructs.flatMap Construct.items) 0 constructs =
      before ++ ⟨.globalLine line, kept⟩ :: after) :
    kept = true ↔
      (∃ f ∈ functionsOf (constructs.flatMap Construct.items),
        f.body.HasName (Global.ofLine line).name) ∨
      ∃ s ∈ (before ++ after).flatMap (·.construct.statements),
        Text.HasName s (Global.ofLine line).name := by
  have others : (before ++ after).flatMap (·.construct.statements) =
      (before.flatMap (·.construct.items) ++ after.flatMap (·.construct.items)).filterMap
        Item.statement? := by
    rw [← List.flatMap_append, List.filterMap_flatMap]
    exact List.flatMap_congr fun s _ => (filterMap_statement?_items s.construct).symm
  rw [kept_of_settle split, Construct.isKept, Nat.zero_add, others, items_of_settle split]
  exact isUsed_iff

end Decided

/-- **A global has a field exactly if something else uses it.** The text is divided into top-level
constructs, each settled on its own: a global of known type keeps its field if its name stands in
the code of a function or of a statement other than its own initializer, as the statements are
before any global becomes a local. Otherwise its initializer is a declaration in its place. No other
field and no other statement depends on that. -/
theorem exists_settles {text : Text} {catalog : Catalog} {script : Script}
    (taken : ofText text catalog = .ok script) : ∃ settled, Settles text script settled := by
  obtain ⟨items, steps, rfl⟩ := exists_of_ofText taken
  have each : ∀ line ∈ (codeLines text).map (·.2), TrimmedLine line :=
    fun line => trimmedLine_of_mem_codeLines
  have placed : codeLines text ≠ [] → Text.pieces (Text.unlines ((codeLines text).map (·.2))) =
      [] ++ Text.pieces (Text.unlines ((codeLines text).map (·.2))) := fun _ => rfl
  obtain ⟨constructs, rfl, lines, stand⟩ := steps.exists_constructs each placed
  have entry := entryBody_ofItems catalog (steps.laid each)
  rw [map_snd_codeLines] at lines stand
  have fields := filterMap_field?_eq (constructs.flatMap Construct.items) 0 constructs
  have statements := filterMap_finalStatement?_eq (constructs.flatMap Construct.items) 0 constructs
  refine ⟨settle (constructs.flatMap Construct.items) 0 constructs, ?_, ?_, fields, ?_, ?_⟩
  · rw [map_construct_settle]
    exact lines
  · rw [map_construct_settle]
    exact stand
  · rw [entry, Script.statements, statements]
  · intro before line kept after split typed
    rw [split, List.flatMap_append, List.flatMap_cons] at fields statements
    rw [statements_globalLine typed] at statements
    refine ⟨kept_iff split, ?_, ?_, ?_⟩
    · exact fields.trans (by cases kept <;> rfl)
    · intro none
      rw [entry, Script.statements, statements, none]
      rfl
    · intro value given
      rw [entry, Script.statements, statements, given]
      rfl

/-- Globals that use each other, an array, two of one name, and a mention in a literal only. -/
theorem exists_settles_of_chain :
    let text : Text := "global int a = 1;\nglobal int b = a;\nglobal int[] c = \x7bb\x7d;\n" ++
      "global int b;\nglobal String d = \"d\"; // d\nfunc void f() \x7b print(c); \x7d"
    let script : Script := ⟨[], [⟨"a", "public static int a;"⟩, ⟨"b", "public static int b;"⟩,
      ⟨"c", "public static int[] c;"⟩, ⟨"b", "public static int b;"⟩],
      [⟨"f", "public static void f() \x7b print(c); \x7d"⟩],
      "\t\ta = 1;\n\t\tb = a;\n\t\tc = new int[] \x7bb\x7d;\n\t\tString d = \"d\";"⟩
    ofText text .empty = .ok script ∧ ∃ settled, Settles text script settled := by
  intro text script
  have taken : ofText text .empty = .ok script := by decide +kernel
  exact ⟨taken, exists_settles taken⟩

end Script

end ScriptLoom
