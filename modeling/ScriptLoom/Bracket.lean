import ScriptLoom.Scan

/-!
# Brackets

Matching of one kind of bracket among code characters. An opening bracket is matched by the
closing one that brings the nesting depth back to zero.
-/

namespace ScriptLoom

/-- The place of the closing bracket that ends the nesting, `depth` brackets being open. A closing
bracket with none open ends the search. -/
def matchFrom (opening closing : Char) : Nat → List (Nat × Char) → Option Nat
  | _, [] => none
  | depth, (i, c) :: rest =>
    if c = opening then matchFrom opening closing (depth + 1) rest
    else if c = closing then
      match depth with
      | 0 => none
      | 1 => some i
      | depth + 2 => matchFrom opening closing (depth + 1) rest
    else matchFrom opening closing depth rest

/-- The place of the bracket that closes the first one at or after a byte offset. -/
def Text.matchingBracket? (t : Text) (start : Nat) (opening closing : Char) : Option Nat :=
  matchFrom opening closing 0 (t.code.dropWhile (·.1 < start))

/-- The pieces before and after the closing bracket of an open one, `depth` more being open
inside it. -/
def splitAtClose? (opening closing : Char) : Nat → List Piece → Option (List Piece × List Piece)
  | _, [] => none
  | depth, .code c :: ps =>
    if c = opening then
      (splitAtClose? opening closing (depth + 1) ps).map fun s => (.code c :: s.1, s.2)
    else if c = closing then
      match depth with
      | 0 => some ([], ps)
      | depth + 1 => (splitAtClose? opening closing depth ps).map fun s => (.code c :: s.1, s.2)
    else (splitAtClose? opening closing depth ps).map fun s => (.code c :: s.1, s.2)
  | depth, p :: ps => (splitAtClose? opening closing depth ps).map fun s => (p :: s.1, s.2)

/-- A split at a closing bracket leaves out that bracket only. -/
theorem spell_of_splitAtClose? {opening closing : Char} {depth : Nat} {ps inside after : List Piece}
    (split : splitAtClose? opening closing depth ps = some (inside, after)) :
    spell ps = spell inside ++ closing :: spell after := by
  fun_induction splitAtClose? opening closing depth ps generalizing inside after with
  | case1 => simp at split
  | case2 depth ps ih =>
    obtain ⟨rest, found, equal⟩ := Option.map_eq_some_iff.1 split
    cases equal
    simp [ih found]
  | case3 ps _ => cases split; simp [Piece.text]
  | case4 ps depth _ ih =>
    obtain ⟨rest, found, equal⟩ := Option.map_eq_some_iff.1 split
    cases equal
    simp [ih found]
  | case5 depth c ps _ _ ih =>
    obtain ⟨rest, found, equal⟩ := Option.map_eq_some_iff.1 split
    cases equal
    simp [ih found]
  | case6 depth p ps _ ih =>
    obtain ⟨rest, found, equal⟩ := Option.map_eq_some_iff.1 split
    cases equal
    simp [ih found]

/-- The pieces before and after the first code character `c`. -/
def splitAtCode? (c : Char) : List Piece → Option (List Piece × List Piece)
  | [] => none
  | p :: ps =>
    if p = .code c then some ([], ps)
    else (splitAtCode? c ps).map fun s => (p :: s.1, s.2)

/-- A text cut after its first block: what runs through the brace matching the first opening
brace, and what follows. -/
def Text.cutBlock? (t : Text) : Option (Text × Text) := do
  let (header, afterOpening) ← splitAtCode? '{' t.pieces
  let (inside, after) ← splitAtClose? '{' '}' 0 afterOpening
  return (spell header ++ '{' :: spell inside ++ ['}'], spell after)

end ScriptLoom
