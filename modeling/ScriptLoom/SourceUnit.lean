import ScriptLoom.Text.Line

/-!
# Generated units

A generated unit is filled slot by slot; the slots come in the order of the template. A slot that
nothing was put into renders as nothing, so the rendered text of a unit that is still being filled
is the skeleton in which library names are looked up.
-/

namespace ScriptLoom

/-- The places of a generated unit, in template order. -/
inductive Slot where
  | catalogImports
  | userImports
  | classHeader
  | catalogDeclarations
  | userGlobals
  | entryPoint
  | userFunctions
  | builtinFunctions
  | classFooter
  deriving DecidableEq, Repr

/-- The slots in template order. -/
def Slot.template : List Slot :=
  [.catalogImports, .userImports, .classHeader, .catalogDeclarations, .userGlobals, .entryPoint,
    .userFunctions, .builtinFunctions, .classFooter]

/-- A unit of generated source: the text in each slot. -/
structure SourceUnit where
  get : Slot → Text

namespace SourceUnit

/-- The unit with nothing in it. -/
def empty : SourceUnit := ⟨fun _ => []⟩

/-- A text that ends its last line. -/
def endLine (t : Text) : Text :=
  if t.endsWith ['\n'] then t else t ++ ['\n']

/-- Puts a text into a slot in place of what is there. -/
def fill (unit : SourceUnit) (slot : Slot) (text : Text) : SourceUnit :=
  ⟨fun other => if other = slot then text else unit.get other⟩

/-- Puts a text into a slot on a new line after what is there. -/
def append (unit : SourceUnit) (slot : Slot) (text : Text) : SourceUnit :=
  unit.fill slot ((if unit.get slot = [] then [] else endLine (unit.get slot)) ++ text)

/-- The text of a unit. -/
def render (unit : SourceUnit) : Text :=
  Slot.template.flatMap fun slot =>
    if unit.get slot = [] then [] else endLine (unit.get slot)

/-- The text of a unit without blank lines. -/
def compact (unit : SourceUnit) : Text :=
  (unit.render.lines.filter fun line => line.trim ≠ []).flatMap (· ++ ['\n'])

/-- A slot holds what it was filled with. -/
@[simp]
theorem get_fill_self (unit : SourceUnit) (slot : Slot) (text : Text) :
    (unit.fill slot text).get slot = text := by
  simp [fill]

/-- Filling a slot leaves the other ones alone. -/
@[simp]
theorem get_fill_of_ne (unit : SourceUnit) {slot other : Slot} (text : Text)
    (differ : other ≠ slot) : (unit.fill slot text).get other = unit.get other := by
  simp [fill, differ]

end SourceUnit

end ScriptLoom
