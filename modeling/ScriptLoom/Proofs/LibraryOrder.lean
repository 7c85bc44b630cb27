import Mathlib.Data.List.Nodup
import ScriptLoom.Composition
import ScriptLoom.Proofs.Lists

/-! # The order of the library does not matter

A library entry is found by its name, and entries are copied in the order in which they are
mentioned. So two pools that hold the same entries in different orders, with one entry of a kind
for each name, give out the same entries at every step of the search (`Pool.Reorders`), and
catalogs that list the same entries in different orders compose a script into the same unit.
-/

namespace ScriptLoom

namespace Pool

/-- Two pools with the same entries in whatever order, no two of a kind under one name. -/
structure Reorders (pool other : Pool) : Prop where
  functions : pool.functions.Perm other.functions
  declarations : pool.declarations.Perm other.declarations
  distinctFunctions : (pool.functions.map (·.name)).Nodup
  distinctDeclarations : (pool.declarations.map (·.name)).Nodup

section Names

variable {α : Type} {name : α → Text} {items : List α}

/-- Where names are distinct, every item is the last one of its name. -/
theorem lastOfEach_eq_self (distinct : (items.map name).Nodup) : lastOfEach name items = items := by
  induction items with
  | nil => rfl
  | cons item rest ih =>
    rw [List.map_cons, List.nodup_cons] at distinct
    have alone : rest.any (fun other => name other = name item) = false := by
      rw [List.any_eq_false]
      intro other member same
      exact distinct.1 (List.mem_map.mpr ⟨other, member, of_decide_eq_true same⟩)
    rw [lastOfEach, alone, if_neg (by simp), ih distinct.2]

end Names

variable {pool other : Pool}

/-- Taking a name out gives the same entries, and leaves the same ones. -/
theorem Reorders.take (reorders : pool.Reorders other) (name : Text) :
    (pool.take name).1 = (other.take name).1 ∧ (pool.take name).2.Reorders (other.take name).2 := by
  constructor
  · simp only [Pool.take, filter_key_eq_of_perm reorders.functions reorders.distinctFunctions,
      filter_key_eq_of_perm reorders.declarations reorders.distinctDeclarations]
  · exact
      { functions := reorders.functions.filter _
        declarations := reorders.declarations.filter _
        distinctFunctions := reorders.distinctFunctions.sublist (List.filter_sublist.map _)
        distinctDeclarations := reorders.distinctDeclarations.sublist (List.filter_sublist.map _) }

private theorem Reorders.takeAll (reorders : pool.Reorders other) (names : List Text) :
    (pool.takeAll names).1 = (other.takeAll names).1 ∧
      (pool.takeAll names).2.Reorders (other.takeAll names).2 := by
  induction names generalizing pool other with
  | nil => exact ⟨rfl, reorders⟩
  | cons name names ih =>
    obtain ⟨first, rest⟩ := reorders.take name
    obtain ⟨further, left⟩ := ih rest
    exact ⟨by rw [Pool.takeAll, Pool.takeAll, first, further], left⟩

end Pool

namespace Closure

/-- A run emits the same entries in the same order from pools that differ in their order only. -/
theorem close_eq_of_reorders (pool : Pool) (waiting : List Entry) :
    ∀ other, pool.Reorders other → close pool waiting = close other waiting := by
  -- along the run of the first pool; at each step both pools give out the same entries
  fun_induction close pool waiting with
  | case1 => exact fun _ _ => by rw [close]
  | case2 pool entry waiting found ih =>
    intro other reorders
    obtain ⟨same, left⟩ := reorders.takeAll entry.source.names
    rw [close, ← same, ih _ left]

end Closure

/-- A catalog with the entries of another one in whatever order, each name of a kind once. -/
structure Catalog.Reorders (catalog other : Catalog) : Prop where
  functions : catalog.functions.Perm other.functions
  declarations : catalog.declarations.Perm other.declarations
  imports : catalog.imports = other.imports
  distinctFunctions : (catalog.functions.map (·.name)).Nodup
  distinctDeclarations : (catalog.declarations.map (·.name)).Nodup

namespace Catalog.Reorders

variable {catalog other : Catalog}

private theorem pool (reorders : catalog.Reorders other) :
    (Pool.ofCatalog catalog).Reorders (Pool.ofCatalog other) := by
  have functions := (reorders.functions.map (·.name)).nodup_iff.mp reorders.distinctFunctions
  have declarations :=
    (reorders.declarations.map (·.name)).nodup_iff.mp reorders.distinctDeclarations
  rw [Pool.ofCatalog, Pool.ofCatalog, Pool.lastOfEach_eq_self reorders.distinctFunctions,
    Pool.lastOfEach_eq_self reorders.distinctDeclarations, Pool.lastOfEach_eq_self functions,
    Pool.lastOfEach_eq_self declarations]
  exact ⟨reorders.functions, reorders.declarations, reorders.distinctFunctions,
    reorders.distinctDeclarations⟩

private theorem needed_eq (reorders : catalog.Reorders other) (skeleton : Text) :
    Closure.needed catalog skeleton = Closure.needed other skeleton := by
  obtain ⟨same, left⟩ := reorders.pool.takeAll skeleton.names
  rw [Closure.needed, Closure.needed, same]
  exact Closure.close_eq_of_reorders _ _ _ left

end Catalog.Reorders

/-- **The order of the library does not matter.** Catalogs that list the same functions and the same
declarations in different orders, with the same import lines, contribute the same builtins,
declarations and imports to a script, in the same order, and give the same unit. -/
theorem Script.compose_eq_of_reorders (script : Script) (className : Text)
    {catalog other : Catalog} (reorders : catalog.Reorders other) :
    script.compose className catalog = script.compose className other := by
  simp only [Script.compose, reorders.needed_eq, reorders.imports]

/-- Two entries that mention each other, listed both ways round. -/
theorem Script.compose_eq_of_swapped :
    let ping : FunctionText := ⟨"ping", "void ping() \x7b pong(LIMIT); \x7d"⟩
    let pong : FunctionText := ⟨"pong", "void pong(int n) \x7b ping(); \x7d"⟩
    let limit : Declaration := ⟨"LIMIT", "int LIMIT = START;"⟩
    let start : Declaration := ⟨"START", "int START = 0;"⟩
    let script : Script := ⟨[], [], [], "\t\tpong(1);"⟩
    script.compose "Demo" ⟨[ping, pong], [limit, start], []⟩ =
      script.compose "Demo" ⟨[pong, ping], [start, limit], []⟩ := by
  intro ping pong limit start script
  exact script.compose_eq_of_reorders "Demo"
    { functions := .swap _ _ _
      declarations := .swap _ _ _
      imports := rfl
      distinctFunctions := by decide
      distinctDeclarations := by decide }

end ScriptLoom
