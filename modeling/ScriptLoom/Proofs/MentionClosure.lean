import Mathlib.Order.Bounds.Basic
import Mathlib.Data.List.Forall2
import ScriptLoom.Composition

/-! # The library closure is the least closed set of names

A set of names is closed when it holds every library name that the skeleton mentions and every
library name that the copied text of a member mentions (`Catalog.MentionClosed`). The names
that the search emits are the least such set.

The search keeps a pool of entries not met yet and a worklist. Three facts about a run from any
pool and worklist carry the proof: its output is part of the worklist and the pool together, none
more often than there (`Closure.exists_close_append_perm`); what an emitted entry mentions in the
pool is emitted too (`Closure.mem_close_of_mentioned`); and a property that the worklist has and
that mentions hand on holds of all that is emitted (`Closure.forall_mem_close`).
-/

namespace ScriptLoom

namespace Catalog

/-- The function that a name stands for, the last one listed under it. -/
def functionNamed? (catalog : Catalog) (name : Text) : Option FunctionText :=
  catalog.functions.reverse.find? (·.name = name)

/-- The declaration that a name stands for, the last one listed under it. -/
def declarationNamed? (catalog : Catalog) (name : Text) : Option Declaration :=
  catalog.declarations.reverse.find? (·.name = name)

/-- A set that holds the library names mentioned by a skeleton and by the copied text of each
member. -/
structure MentionClosed (catalog : Catalog) (skeleton : Text) (members : Set Text) : Prop where
  skeleton : ∀ name ∈ catalog.names, name ∈ skeleton.names → name ∈ members
  function : ∀ member ∈ members, ∀ f, catalog.functionNamed? member = some f →
    ∀ name ∈ catalog.names, name ∈ f.body.withoutComments.names → name ∈ members
  declaration : ∀ member ∈ members, ∀ d, catalog.declarationNamed? member = some d →
    ∀ name ∈ catalog.names, name ∈ d.text.withoutComments.asStatic.names → name ∈ members

end Catalog

/-- The name of an entry. -/
def Entry.name : Entry → Text
  | .function f => f.name
  | .declaration d => d.name

namespace Pool

/-- The entries of a pool. -/
def entries (pool : Pool) : List Entry :=
  pool.functions.map .function ++ pool.declarations.map .declaration

/-! ### The last item of each name -/

section LastOfEach

variable {α : Type} (name : α → Text)

/-- An item is kept exactly when it is the last one of its name. -/
theorem mem_lastOfEach_iff {items : List α} {item : α} :
    item ∈ lastOfEach name items ↔
      items.reverse.find? (fun other => name other = name item) = some item := by
  induction items with
  | nil => simp [lastOfEach]
  | cons first rest ih =>
    by_cases shadowed : rest.any (fun other => name other = name first)
    · simp only [lastOfEach, shadowed, ↓reduceIte, List.reverse_cons, List.find?_append, ih]
      constructor
      · intro found
        simp only [found, Option.some_or]
      · intro found
        cases last : rest.reverse.find? (fun other => name other = name item) with
        | some other => simpa only [last, Option.some_or] using found
        | none =>
          exfalso
          simp only [last, Option.none_or, List.find?_singleton] at found
          split at found
          · next same =>
            cases found
            obtain ⟨other, member, equal⟩ := List.any_eq_true.mp shadowed
            exact List.find?_eq_none.mp last other (List.mem_reverse.mpr member) equal
          · cases found
    · simp only [lastOfEach, shadowed, Bool.false_eq_true, ↓reduceIte, List.mem_cons,
        List.reverse_cons, List.find?_append, ih]
      have fresh : ∀ other ∈ rest, name other ≠ name first := by
        intro other member equal
        exact shadowed (List.any_eq_true.mpr ⟨other, member, decide_eq_true equal⟩)
      constructor
      · rintro (rfl | found)
        · have none : rest.reverse.find? (fun other => name other = name item) = none := by
            rw [List.find?_eq_none]
            intro other member
            simpa using fresh other (List.mem_reverse.mp member)
          simp [none]
        · simp only [found, Option.some_or]
      · intro found
        cases last : rest.reverse.find? (fun other => name other = name item) with
        | some other => exact .inr (by simpa only [last, Option.some_or] using found)
        | none =>
          simp only [last, Option.none_or, List.find?_singleton] at found
          split at found
          · exact .inl (Option.some.inj found).symm
          · cases found

/-- Every name that occurs is kept. -/
theorem mem_map_lastOfEach_iff {items : List α} {n : Text} :
    n ∈ (lastOfEach name items).map name ↔ n ∈ items.map name := by
  induction items with
  | nil => simp [lastOfEach]
  | cons first rest ih =>
    by_cases shadowed : rest.any (fun other => name other = name first)
    · simp only [lastOfEach, shadowed, ↓reduceIte, ih, List.map_cons, List.mem_cons]
      constructor
      · exact .inr
      · rintro (rfl | member)
        · obtain ⟨other, member, equal⟩ := List.any_eq_true.mp shadowed
          exact List.mem_map.mpr ⟨other, member, of_decide_eq_true equal⟩
        · exact member
    · simp only [lastOfEach, shadowed, Bool.false_eq_true, ↓reduceIte, List.map_cons,
        List.mem_cons, ih]

/-- No name is kept twice. -/
theorem nodup_map_lastOfEach (items : List α) : ((lastOfEach name items).map name).Nodup := by
  induction items with
  | nil => simp [lastOfEach]
  | cons first rest ih =>
    by_cases shadowed : rest.any (fun other => name other = name first)
    · simpa only [lastOfEach, shadowed, ↓reduceIte] using ih
    · simp only [lastOfEach, shadowed, Bool.false_eq_true, ↓reduceIte, List.map_cons,
        List.nodup_cons, mem_map_lastOfEach_iff]
      refine ⟨?_, ih⟩
      intro member
      obtain ⟨other, present, equal⟩ := List.mem_map.mp member
      exact shadowed (List.any_eq_true.mpr ⟨other, present, decide_eq_true equal⟩)

end LastOfEach

/-! ### Taking entries by name -/

variable (pool : Pool)

/-- Taking a name out of a pool gives the entries of that name. -/
theorem mem_take_iff {name : Text} {entry : Entry} :
    entry ∈ (pool.take name).1 ↔ entry ∈ pool.entries ∧ entry.name = name := by
  cases entry <;> simp [take, entries, Entry.name]

/-- Taking a name out of a pool leaves the other entries. -/
theorem mem_entries_take_iff {name : Text} {entry : Entry} :
    entry ∈ (pool.take name).2.entries ↔ entry ∈ pool.entries ∧ entry.name ≠ name := by
  cases entry <;> simp [take, entries, Entry.name]

/-- Taking names out of a pool gives the entries of those names. -/
theorem mem_takeAll_iff {names : List Text} {entry : Entry} :
    entry ∈ (pool.takeAll names).1 ↔ entry ∈ pool.entries ∧ entry.name ∈ names := by
  induction names generalizing pool with
  | nil => simp [takeAll]
  | cons name names ih =>
    simp only [takeAll, List.mem_append, mem_take_iff, ih, mem_entries_take_iff, List.mem_cons]
    tauto

/-- Taking names out of a pool leaves the other entries. -/
theorem mem_entries_takeAll_iff {names : List Text} {entry : Entry} :
    entry ∈ (pool.takeAll names).2.entries ↔ entry ∈ pool.entries ∧ entry.name ∉ names := by
  induction names generalizing pool with
  | nil => simp [takeAll]
  | cons name names ih =>
    simp only [takeAll, ih, mem_entries_take_iff, List.mem_cons]
    tauto

/-- Taking a name out of a pool only moves entries. -/
theorem take_append_entries_perm (name : Text) :
    ((pool.take name).1 ++ (pool.take name).2.entries).Perm pool.entries := by
  have functions : (pool.functions.filter (·.name = name) ++
      pool.functions.filter (·.name ≠ name)).Perm pool.functions := by
    simpa using List.filter_append_perm (fun f => decide (f.name = name)) pool.functions
  have declarations : (pool.declarations.filter (·.name = name) ++
      pool.declarations.filter (·.name ≠ name)).Perm pool.declarations := by
    simpa using List.filter_append_perm (fun d => decide (d.name = name)) pool.declarations
  have parts := (functions.map Entry.function).append (declarations.map Entry.declaration)
  simp only [List.map_append] at parts
  refine List.Perm.trans ?_ parts
  simp only [take, entries, List.append_assoc]
  refine List.Perm.append_left _ ?_
  rw [← List.append_assoc, ← List.append_assoc]
  exact List.perm_append_comm.append_right _

/-- Taking names out of a pool only moves entries. -/
theorem takeAll_append_entries_perm (names : List Text) :
    ((pool.takeAll names).1 ++ (pool.takeAll names).2.entries).Perm pool.entries := by
  induction names generalizing pool with
  | nil => simp [takeAll]
  | cons name names ih =>
    simp only [takeAll, List.append_assoc]
    exact ((ih (pool.take name).2).append_left _).trans (pool.take_append_entries_perm name)

end Pool

namespace Closure

/-! ### A run of the search -/

/-- What a run emits is part of the worklist and the pool together. -/
theorem exists_close_append_perm (pool : Pool) (waiting : List Entry) :
    ∃ left, (close pool waiting ++ left).Perm (waiting ++ pool.entries) := by
  fun_induction close pool waiting with
  | case1 pool => exact ⟨pool.entries, by simp⟩
  | case2 pool entry waiting found ih =>
    obtain ⟨left, perm⟩ := ih
    refine ⟨left, ?_⟩
    simp only [List.cons_append]
    refine List.Perm.cons entry (perm.trans ?_)
    have moved := pool.takeAll_append_entries_perm entry.source.names
    refine List.Perm.trans ?_ (moved.append_left waiting)
    rw [← List.append_assoc]
    exact List.perm_append_comm.append_right _

/-- A run emits its worklist. -/
theorem mem_close_of_mem {pool : Pool} {waiting : List Entry} {entry : Entry}
    (member : entry ∈ waiting) : entry ∈ close pool waiting := by
  fun_induction close pool waiting with
  | case1 => cases member
  | case2 pool first waiting found ih =>
    rcases List.mem_cons.mp member with rfl | later
    · exact List.mem_cons_self
    · exact List.mem_cons_of_mem _ (ih (List.mem_append_right _ later))

/-- A run emits every entry of the pool that an emitted entry mentions. -/
theorem mem_close_of_mentioned {pool : Pool} {waiting : List Entry} {entry other : Entry}
    (emitted : entry ∈ close pool waiting) (present : other ∈ pool.entries)
    (mentioned : other.name ∈ entry.source.names) : other ∈ close pool waiting := by
  fun_induction close pool waiting with
  | case1 => cases emitted
  | case2 pool first waiting found ih =>
    -- an entry leaves the pool either for the worklist, now, or stays for the rest of the run
    by_cases taken : other.name ∈ first.source.names
    · have waits : other ∈ (pool.takeAll first.source.names).1 :=
        pool.mem_takeAll_iff.mpr ⟨present, taken⟩
      exact List.mem_cons_of_mem _ (mem_close_of_mem (List.mem_append_left _ waits))
    · rcases List.mem_cons.mp emitted with rfl | later
      · exact absurd mentioned taken
      · have stays : other ∈ (pool.takeAll first.source.names).2.entries :=
          pool.mem_entries_takeAll_iff.mpr ⟨present, taken⟩
        exact List.mem_cons_of_mem _ (ih later stays)

/-- A property of the worklist that mentions hand on holds of all that a run emits. -/
theorem forall_mem_close {pool : Pool} {waiting : List Entry} {property : Entry → Prop}
    (start : ∀ entry ∈ waiting, property entry)
    (step : ∀ entry, property entry → ∀ other ∈ pool.entries,
      other.name ∈ entry.source.names → property other) :
    ∀ entry ∈ close pool waiting, property entry := by
  fun_induction close pool waiting with
  | case1 => simp
  | case2 pool first waiting found ih =>
    have head : property first := start first List.mem_cons_self
    intro entry emitted
    rcases List.mem_cons.mp emitted with rfl | later
    · exact head
    · refine ih ?_ ?_ entry later
      · intro other member
        rcases List.mem_append.mp member with taken | waits
        · obtain ⟨present, mentioned⟩ := pool.mem_takeAll_iff.mp taken
          exact step first head other present mentioned
        · exact start other (List.mem_cons_of_mem _ waits)
      · intro source holds other left mentioned
        exact step source holds other (pool.mem_entries_takeAll_iff.mp left).1 mentioned

/-! ### The search from a skeleton -/

variable {catalog : Catalog} {skeleton : Text}

/-- The whole library as entries: each name with what it stands for. -/
theorem function_mem_ofCatalog_iff {f : FunctionText} :
    .function f ∈ (Pool.ofCatalog catalog).entries ↔ catalog.functionNamed? f.name = some f := by
  simp [Pool.entries, Pool.ofCatalog, Pool.mem_lastOfEach_iff, Catalog.functionNamed?]

/-- The whole library as entries: each name with what it stands for. -/
theorem declaration_mem_ofCatalog_iff {d : Declaration} :
    .declaration d ∈ (Pool.ofCatalog catalog).entries ↔
      catalog.declarationNamed? d.name = some d := by
  simp [Pool.entries, Pool.ofCatalog, Pool.mem_lastOfEach_iff, Catalog.declarationNamed?]

/-- A library name is the name of some entry. -/
theorem exists_entry_of_mem_names {name : Text} (known : name ∈ catalog.names) :
    ∃ entry ∈ (Pool.ofCatalog catalog).entries, entry.name = name := by
  rcases List.mem_append.mp known with listed | listed
  · obtain ⟨f, kept, rfl⟩ := List.mem_map.mp ((Pool.mem_map_lastOfEach_iff _).mpr listed)
    exact ⟨.function f, List.mem_append_left _ (List.mem_map_of_mem kept), rfl⟩
  · obtain ⟨d, kept, rfl⟩ := List.mem_map.mp ((Pool.mem_map_lastOfEach_iff _).mpr listed)
    exact ⟨.declaration d, List.mem_append_right _ (List.mem_map_of_mem kept), rfl⟩

/-- The name of an entry is a library name. -/
theorem name_mem_names {entry : Entry} (present : entry ∈ (Pool.ofCatalog catalog).entries) :
    entry.name ∈ catalog.names := by
  rcases List.mem_append.mp present with listed | listed
  · obtain ⟨f, kept, rfl⟩ := List.mem_map.mp listed
    exact List.mem_append_left _
      ((Pool.mem_map_lastOfEach_iff _).mp (List.mem_map.mpr ⟨f, kept, rfl⟩))
  · obtain ⟨d, kept, rfl⟩ := List.mem_map.mp listed
    exact List.mem_append_right _
      ((Pool.mem_map_lastOfEach_iff _).mp (List.mem_map.mpr ⟨d, kept, rfl⟩))

/-- What a skeleton needs is part of the library, none of it twice. -/
theorem exists_needed_append_perm (catalog : Catalog) (skeleton : Text) :
    ∃ left, (needed catalog skeleton ++ left).Perm (Pool.ofCatalog catalog).entries := by
  obtain ⟨left, perm⟩ := exists_close_append_perm
    ((Pool.ofCatalog catalog).takeAll skeleton.names).2
    ((Pool.ofCatalog catalog).takeAll skeleton.names).1
  exact ⟨left, perm.trans (Pool.takeAll_append_entries_perm _ _)⟩

/-- What a skeleton needs is in the library. -/
theorem mem_ofCatalog_of_mem_needed {entry : Entry} (emitted : entry ∈ needed catalog skeleton) :
    entry ∈ (Pool.ofCatalog catalog).entries := by
  obtain ⟨left, perm⟩ := exists_needed_append_perm catalog skeleton
  exact perm.mem_iff.mp (List.mem_append_left _ emitted)

/-- A skeleton needs the entries that it mentions. -/
theorem mem_needed_of_skeleton {entry : Entry}
    (present : entry ∈ (Pool.ofCatalog catalog).entries)
    (mentioned : entry.name ∈ skeleton.names) : entry ∈ needed catalog skeleton :=
  mem_close_of_mem (((Pool.ofCatalog catalog).mem_takeAll_iff).mpr ⟨present, mentioned⟩)

/-- A skeleton needs the entries that a needed one mentions. -/
theorem mem_needed_of_mentioned {entry other : Entry} (emitted : entry ∈ needed catalog skeleton)
    (present : other ∈ (Pool.ofCatalog catalog).entries)
    (mentioned : other.name ∈ entry.source.names) : other ∈ needed catalog skeleton := by
  by_cases early : other.name ∈ skeleton.names
  · exact mem_needed_of_skeleton present early
  · exact mem_close_of_mentioned emitted
      (((Pool.ofCatalog catalog).mem_entries_takeAll_iff).mpr ⟨present, early⟩) mentioned

/-- A property of the entries that a skeleton mentions, handed on by mentions, holds of all that
it needs. -/
theorem forall_mem_needed {property : Entry → Prop}
    (start : ∀ entry ∈ (Pool.ofCatalog catalog).entries, entry.name ∈ skeleton.names →
      property entry)
    (step : ∀ entry, property entry → ∀ other ∈ (Pool.ofCatalog catalog).entries,
      other.name ∈ entry.source.names → property other) :
    ∀ entry ∈ needed catalog skeleton, property entry := by
  refine forall_mem_close ?_ ?_
  · intro entry taken
    obtain ⟨present, mentioned⟩ := (Pool.mem_takeAll_iff _).mp taken
    exact start entry present mentioned
  · intro entry holds other left mentioned
    exact step entry holds other ((Pool.mem_entries_takeAll_iff _).mp left).1 mentioned

/-- A function and a declaration of one name are needed together. -/
theorem mem_needed_of_name_eq {entry other : Entry} (emitted : entry ∈ needed catalog skeleton)
    (present : other ∈ (Pool.ofCatalog catalog).entries) (same : other.name = entry.name) :
    other ∈ needed catalog skeleton := by
  have together : ∀ entry ∈ needed catalog skeleton, entry ∈ needed catalog skeleton ∧
      ∀ other ∈ (Pool.ofCatalog catalog).entries, other.name = entry.name →
        other ∈ needed catalog skeleton := by
    refine forall_mem_needed ?_ ?_
    · intro entry present mentioned
      refine ⟨mem_needed_of_skeleton present mentioned, ?_⟩
      intro other presentOther same
      exact mem_needed_of_skeleton presentOther (same ▸ mentioned)
    · rintro source ⟨sourceEmitted, -⟩ entry present mentioned
      refine ⟨mem_needed_of_mentioned sourceEmitted present mentioned, ?_⟩
      intro other presentOther same
      exact mem_needed_of_mentioned sourceEmitted presentOther (same ▸ mentioned)
  exact (together entry emitted).2 other present same

/-! ### The emitted names -/

/-- The function names among entries. -/
theorem mem_functionNames_iff {entries : List Entry} {name : Text} :
    name ∈ functionNames entries ↔ ∃ f, .function f ∈ entries ∧ f.name = name := by
  simp only [functionNames, List.mem_map, List.mem_filterMap]
  constructor
  · rintro ⟨f, ⟨entry, member, isFunction⟩, named⟩
    cases entry with
    | function g =>
      cases isFunction
      exact ⟨f, member, named⟩
    | declaration d => cases isFunction
  · rintro ⟨f, member, named⟩
    exact ⟨f, ⟨.function f, member, rfl⟩, named⟩

/-- The declaration names among entries. -/
theorem mem_declarationNames_iff {entries : List Entry} {name : Text} :
    name ∈ declarationNames entries ↔ ∃ d, .declaration d ∈ entries ∧ d.name = name := by
  simp only [declarationNames, List.mem_map, List.mem_filterMap]
  constructor
  · rintro ⟨d, ⟨entry, member, isDeclaration⟩, named⟩
    cases entry with
    | function f => cases isDeclaration
    | declaration e =>
      cases isDeclaration
      exact ⟨d, member, named⟩
  · rintro ⟨d, member, named⟩
    exact ⟨d, ⟨.declaration d, member, rfl⟩, named⟩

/-- A name is emitted when some entry of that name is. -/
theorem emitted_iff {entries : List Entry} {name : Text} :
    name ∈ functionNames entries ∨ name ∈ declarationNames entries ↔
      ∃ entry ∈ entries, entry.name = name := by
  rw [mem_functionNames_iff, mem_declarationNames_iff]
  constructor
  · rintro (⟨f, member, named⟩ | ⟨d, member, named⟩)
    · exact ⟨.function f, member, named⟩
    · exact ⟨.declaration d, member, named⟩
  · rintro ⟨entry, member, named⟩
    cases entry with
    | function f => exact .inl ⟨f, member, named⟩
    | declaration d => exact .inr ⟨d, member, named⟩

/-- No function name is emitted twice. -/
theorem nodup_functionNames_needed (catalog : Catalog) (skeleton : Text) :
    (functionNames (needed catalog skeleton)).Nodup := by
  obtain ⟨left, perm⟩ := exists_needed_append_perm catalog skeleton
  have whole : functionNames (Pool.ofCatalog catalog).entries =
      (Pool.ofCatalog catalog).functions.map (·.name) := by
    simp [functionNames, Pool.entries, Entry.function?, Function.comp_def]
  have names : (functionNames (needed catalog skeleton ++ left)).Perm
      (functionNames (Pool.ofCatalog catalog).entries) :=
    (perm.filterMap Entry.function?).map FunctionText.name
  rw [whole] at names
  have distinct := names.nodup_iff.mpr (Pool.nodup_map_lastOfEach _ catalog.functions)
  simp only [functionNames, List.filterMap_append, List.map_append] at distinct
  exact (List.nodup_append.mp distinct).1

/-- No declaration name is emitted twice. -/
theorem nodup_declarationNames_needed (catalog : Catalog) (skeleton : Text) :
    (declarationNames (needed catalog skeleton)).Nodup := by
  obtain ⟨left, perm⟩ := exists_needed_append_perm catalog skeleton
  have whole : declarationNames (Pool.ofCatalog catalog).entries =
      (Pool.ofCatalog catalog).declarations.map (·.name) := by
    simp [declarationNames, Pool.entries, Entry.declaration?, Function.comp_def]
  have names : (declarationNames (needed catalog skeleton ++ left)).Perm
      (declarationNames (Pool.ofCatalog catalog).entries) :=
    (perm.filterMap Entry.declaration?).map Declaration.name
  rw [whole] at names
  have distinct := names.nodup_iff.mpr (Pool.nodup_map_lastOfEach _ catalog.declarations)
  simp only [declarationNames, List.filterMap_append, List.map_append] at distinct
  exact (List.nodup_append.mp distinct).1

/-- The emitted names are closed under mention. -/
theorem mentionClosed_emitted (catalog : Catalog) (skeleton : Text) :
    catalog.MentionClosed skeleton
      {name | name ∈ functionNames (needed catalog skeleton) ∨
        name ∈ declarationNames (needed catalog skeleton)} where
  skeleton := by
    intro name known mentioned
    obtain ⟨entry, present, rfl⟩ := exists_entry_of_mem_names known
    exact emitted_iff.mpr ⟨entry, mem_needed_of_skeleton present mentioned, rfl⟩
  function := by
    intro member emitted f stands name known mentioned
    have named : f.name = member := by simpa using List.find?_some stands
    subst named
    obtain ⟨entry, entryEmitted, same⟩ := emitted_iff.mp emitted
    have functionEmitted := mem_needed_of_name_eq entryEmitted
      (function_mem_ofCatalog_iff.mpr stands) same.symm
    obtain ⟨other, present, rfl⟩ := exists_entry_of_mem_names known
    exact emitted_iff.mpr ⟨other, mem_needed_of_mentioned functionEmitted present mentioned, rfl⟩
  declaration := by
    intro member emitted d stands name known mentioned
    have named : d.name = member := by simpa using List.find?_some stands
    subst named
    obtain ⟨entry, entryEmitted, same⟩ := emitted_iff.mp emitted
    have declarationEmitted := mem_needed_of_name_eq entryEmitted
      (declaration_mem_ofCatalog_iff.mpr stands) same.symm
    obtain ⟨other, present, rfl⟩ := exists_entry_of_mem_names known
    exact emitted_iff.mpr
      ⟨other, mem_needed_of_mentioned declarationEmitted present mentioned, rfl⟩

/-- Every closed set holds the emitted names. -/
theorem emitted_subset_of_mentionClosed {members : Set Text}
    (closed : catalog.MentionClosed skeleton members) :
    {name | name ∈ functionNames (needed catalog skeleton) ∨
      name ∈ declarationNames (needed catalog skeleton)} ⊆ members := by
  -- being a library entry is carried along, so that its name stands for it
  have held : ∀ entry ∈ needed catalog skeleton,
      entry ∈ (Pool.ofCatalog catalog).entries ∧ entry.name ∈ members := by
    refine forall_mem_needed ?_ ?_
    · intro entry present mentioned
      exact ⟨present, closed.skeleton _ (name_mem_names present) mentioned⟩
    · rintro entry ⟨present, held⟩ other otherPresent mentioned
      refine ⟨otherPresent, ?_⟩
      have known := name_mem_names otherPresent
      cases entry with
      | function f =>
        exact closed.function _ held f (function_mem_ofCatalog_iff.mp present) _ known mentioned
      | declaration d =>
        exact closed.declaration _ held d (declaration_mem_ofCatalog_iff.mp present) _ known
          mentioned
  intro name emitted
  obtain ⟨entry, member, rfl⟩ := emitted_iff.mp emitted
  exact (held entry member).2

/-- The emitted function bodies stand beside the names of their functions. -/
theorem forall₂_functionNames_functionBodies (catalog : Catalog) (skeleton : Text) :
    List.Forall₂
      (fun name body => ∃ f, catalog.functionNamed? name = some f ∧
        body = f.body.withoutComments.withoutBlankLines)
      (functionNames (needed catalog skeleton)) (functionBodies (needed catalog skeleton)) := by
  simp only [functionNames, functionBodies, List.forall₂_map_left_iff,
    List.forall₂_map_right_iff, List.forall₂_same]
  intro f member
  obtain ⟨entry, emitted, isFunction⟩ := List.mem_filterMap.mp member
  cases entry with
  | function g =>
    cases isFunction
    exact ⟨f, function_mem_ofCatalog_iff.mp (mem_ofCatalog_of_mem_needed emitted), rfl⟩
  | declaration d => cases isFunction

/-- The emitted declaration texts stand beside the names of their declarations. -/
theorem forall₂_declarationNames_declarationTexts (catalog : Catalog) (skeleton : Text) :
    List.Forall₂
      (fun name text => ∃ d, catalog.declarationNamed? name = some d ∧
        text = d.text.withoutComments.asStatic)
      (declarationNames (needed catalog skeleton))
      (declarationTexts (needed catalog skeleton)) := by
  simp only [declarationNames, declarationTexts, List.forall₂_map_left_iff,
    List.forall₂_map_right_iff, List.forall₂_same]
  intro d member
  obtain ⟨entry, emitted, isDeclaration⟩ := List.mem_filterMap.mp member
  cases entry with
  | function f => cases isDeclaration
  | declaration e =>
    cases isDeclaration
    exact ⟨d, declaration_mem_ofCatalog_iff.mp (mem_ofCatalog_of_mem_needed emitted), rfl⟩

/-- **The closure is exact.** The names that a skeleton draws from a library are the least set
closed under mention. No name of a kind comes twice, a name of both kinds comes as both, and each
copied text is that of the entry which the name beside it stands for. -/
theorem isLeast_mentionClosed_needed (catalog : Catalog) (skeleton : Text) :
    let entries := needed catalog skeleton
    let emitted : Set Text :=
      {name | name ∈ functionNames entries ∨ name ∈ declarationNames entries}
    IsLeast {members | catalog.MentionClosed skeleton members} emitted ∧
      (∀ name ∈ emitted, name ∈ catalog.functions.map (·.name) → name ∈ functionNames entries) ∧
      (∀ name ∈ emitted, name ∈ catalog.declarations.map (·.name) →
        name ∈ declarationNames entries) ∧
      (functionNames entries).Nodup ∧ (declarationNames entries).Nodup ∧
      List.Forall₂
        (fun name body => ∃ f, catalog.functionNamed? name = some f ∧
          body = f.body.withoutComments.withoutBlankLines)
        (functionNames entries) (functionBodies entries) ∧
      List.Forall₂
        (fun name text => ∃ d, catalog.declarationNamed? name = some d ∧
          text = d.text.withoutComments.asStatic)
        (declarationNames entries) (declarationTexts entries) := by
  intro entries emitted
  refine ⟨⟨mentionClosed_emitted catalog skeleton, ?_⟩, ?_, ?_,
    nodup_functionNames_needed catalog skeleton, nodup_declarationNames_needed catalog skeleton,
    forall₂_functionNames_functionBodies catalog skeleton,
    forall₂_declarationNames_declarationTexts catalog skeleton⟩
  · intro members closed
    exact emitted_subset_of_mentionClosed closed
  · intro name present listed
    obtain ⟨entry, member, rfl⟩ := emitted_iff.mp present
    obtain ⟨f, kept, named⟩ := List.mem_map.mp ((Pool.mem_map_lastOfEach_iff _).mpr listed)
    have inLibrary : .function f ∈ (Pool.ofCatalog catalog).entries :=
      List.mem_append_left _ (List.mem_map_of_mem kept)
    exact mem_functionNames_iff.mpr ⟨f, mem_needed_of_name_eq member inLibrary named, named⟩
  · intro name present listed
    obtain ⟨entry, member, rfl⟩ := emitted_iff.mp present
    obtain ⟨d, kept, named⟩ := List.mem_map.mp ((Pool.mem_map_lastOfEach_iff _).mpr listed)
    have inLibrary : .declaration d ∈ (Pool.ofCatalog catalog).entries :=
      List.mem_append_right _ (List.mem_map_of_mem kept)
    exact mem_declarationNames_iff.mpr ⟨d, mem_needed_of_name_eq member inLibrary named, named⟩

end Closure

end ScriptLoom
