import ScriptLoom.Text.Basic

/-!
# JSON values

What is read from a JSON text. Numbers are checked but their values are never used. A string whose
escapes leave half of a surrogate pair alone spells no text; it may stand where nothing reads it,
also as the name of a member.
-/

namespace ScriptLoom

/-- A JSON value. -/
inductive Json where
  | null
  | bool (value : Bool)
  | number
  | string (text : Option Text)
  | array (items : List Json)
  | object (members : List (Option Text × Json))

namespace Json

/-- The truth value that a JSON value is. -/
def bool? : Json → Option Bool
  | .bool value => some value
  | _ => none

/-- The text that a JSON value is. -/
def text? : Json → Option Text
  | .string text => text
  | _ => none

/-- The items of an array, each read in the same way. -/
def items? {α : Type} (read : Json → Option α) : Json → Option (List α)
  | .array items => items.mapM read
  | _ => none

/-- A value that may also be null. -/
def nullable? {α : Type} (read : Json → Option α) : Json → Option (Option α)
  | .null => some none
  | value => (read value).map some

/-- Whether no two members have the same one of some names. -/
def namesOnce (names : List Text) (members : List (Text × Json)) : Bool :=
  names.all fun name => members.countP (·.1 = name) ≤ 1

/-- The values of named fields. They are the members of an object, or the items of an array in the
order of the names, which may end early. A field that comes twice, too many items and, if
`strict`, other members are refused. -/
def record? (names : List Text) (strict : Bool) : Json → Option (Text → Option Json)
  | .object members => do
    let members ← members.mapM fun (name, value) => name.map (·, value)
    let known := members.all fun member => names.contains member.1
    if namesOnce names members && (known || !strict) then
      some fun name => members.lookup name
    else none
  | .array items =>
    if items.length ≤ names.length then some fun name => (names.zip items).lookup name else none
  | _ => none

/-- A field that must be there. -/
def required? {α : Type} (read : Json → Option α) (field : Option Json) : Option α :=
  field.bind read

/-- A field that has a value of its own when it is left out. -/
def optional? {α : Type} (read : Json → Option α) (absent : α) : Option Json → Option α
  | none => some absent
  | some value => read value

end Json

end ScriptLoom
