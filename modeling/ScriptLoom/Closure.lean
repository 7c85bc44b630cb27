import ScriptLoom.Catalog.Basic

/-!
# What a program needs from the library

A library function or declaration is needed when its name is an identifier of the program or of
another needed entry. The entries still to be taken are kept in a pool; taking an entry from the
pool for the first name that mentions it makes sure that none comes twice, and the search ends
because every step empties the worklist or the pool.
-/

namespace ScriptLoom

/-- An entry of the library. -/
inductive Entry where
  | function (f : FunctionText)
  | declaration (d : Declaration)
  deriving DecidableEq, Repr

namespace Entry

/-- The text of an entry as it is looked through for further names. -/
def source : Entry → Text
  | .function f => f.body.withoutComments
  | .declaration d => d.text.withoutComments.asStatic

/-- The function of an entry. -/
def function? : Entry → Option FunctionText
  | .function f => some f
  | .declaration _ => none

/-- The declaration of an entry. -/
def declaration? : Entry → Option Declaration
  | .function _ => none
  | .declaration d => some d

end Entry

/-- The library entries that are not needed so far. -/
structure Pool where
  functions : List FunctionText
  declarations : List Declaration
  deriving DecidableEq, Repr

namespace Pool

/-- The number of entries in a pool. -/
def size (pool : Pool) : Nat :=
  pool.functions.length + pool.declarations.length

/-- The items of a list that no later one shares its name with. -/
def lastOfEach {α : Type} (name : α → Text) : List α → List α
  | [] => []
  | a :: rest =>
    if rest.any (fun b => name b = name a) then lastOfEach name rest else a :: lastOfEach name rest

/-- All entries of a catalog; a name listed twice stands for its last item. -/
def ofCatalog (catalog : Catalog) : Pool :=
  ⟨lastOfEach (·.name) catalog.functions, lastOfEach (·.name) catalog.declarations⟩

/-- Takes the entries of a name out of a pool. -/
def take (pool : Pool) (name : Text) : List Entry × Pool :=
  ((pool.functions.filter (·.name = name)).map Entry.function
      ++ (pool.declarations.filter (·.name = name)).map Entry.declaration,
    ⟨pool.functions.filter (·.name ≠ name), pool.declarations.filter (·.name ≠ name)⟩)

/-- Takes the entries of several names out of a pool, in the order of the names. -/
def takeAll (pool : Pool) : List Text → List Entry × Pool
  | [] => ([], pool)
  | name :: names =>
    let first := pool.take name
    let further := first.2.takeAll names
    (first.1 ++ further.1, further.2)

/-- Taking entries moves them from the pool to the result. -/
theorem length_take (pool : Pool) (name : Text) :
    (pool.take name).1.length + (pool.take name).2.size = pool.size := by
  have functions := pool.functions.length_eq_countP_add_countP (·.name = name)
  have declarations := pool.declarations.length_eq_countP_add_countP (·.name = name)
  simp only [List.countP_eq_length_filter, decide_eq_true_eq] at functions declarations
  simp only [take, size, List.length_append, List.length_map, ne_eq]
  omega

/-- Taking entries moves them from the pool to the result. -/
theorem length_takeAll (pool : Pool) (names : List Text) :
    (pool.takeAll names).1.length + (pool.takeAll names).2.size = pool.size := by
  induction names generalizing pool with
  | nil => simp [takeAll]
  | cons name names ih =>
    have := ih (pool.take name).2
    have := pool.length_take name
    simp only [takeAll, List.length_append]
    omega

end Pool

namespace Closure

/-- The entries of a worklist and all they need, each followed by what it needs first. -/
def close (pool : Pool) : List Entry → List Entry
  | [] => []
  | entry :: waiting =>
    let found := pool.takeAll entry.source.names
    entry :: close found.2 (found.1 ++ waiting)
termination_by waiting => waiting.length + pool.size
decreasing_by
  have := pool.length_takeAll entry.source.names
  simp only [List.length_append, List.length_cons]
  omega

/-- The entries of a catalog that a skeleton needs. -/
def needed (catalog : Catalog) (skeleton : Text) : List Entry :=
  let found := (Pool.ofCatalog catalog).takeAll skeleton.names
  close found.2 found.1

/-- The names of the functions among entries, in the order of inclusion. -/
def functionNames (entries : List Entry) : List Text :=
  (entries.filterMap Entry.function?).map (·.name)

/-- The functions among entries as they are copied into a program. -/
def functionBodies (entries : List Entry) : List Text :=
  (entries.filterMap Entry.function?).map fun f => (Entry.function f).source.withoutBlankLines

/-- The names of the declarations among entries, in the order of inclusion. -/
def declarationNames (entries : List Entry) : List Text :=
  (entries.filterMap Entry.declaration?).map (·.name)

/-- The declarations among entries as they are copied into a program. -/
def declarationTexts (entries : List Entry) : List Text :=
  (entries.filterMap Entry.declaration?).map fun d => (Entry.declaration d).source

end Closure

end ScriptLoom
