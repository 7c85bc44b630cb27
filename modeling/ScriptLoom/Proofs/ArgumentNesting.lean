import ScriptLoom.Proofs.FormatExpansion
import ScriptLoom.Proofs.Lists

/-! # Commas between arguments

The arguments of a call are cut at the commas that one counter for all kinds of brackets takes to
stand outside of them. Where the brackets are properly nested (`Nested`), these are the commas of
the code that no pair of brackets encloses (`Enclosed`), although the counter never looks at the
kind of a bracket: `FormatCall.argumentPieces` passes over a pair of brackets as over one piece
(`FormatCall.argumentPieces_pair`). So the arguments are what stands between these commas, and their
own brackets are nested again.
-/

namespace ScriptLoom

/-! ### Nested brackets -/

/-- The bracket that closes an opening one. -/
def closingOf? (c : Char) : Option Char :=
  if c = '(' then some ')' else if c = '[' then some ']' else if c = '{' then some '}' else none

/-- Whether a character is a closing bracket. -/
def isClosing (c : Char) : Bool :=
  c = ')' || c = ']' || c = '}'

/-- Whether a piece is a bracket of the code. -/
def Piece.isBracket : Piece → Bool
  | .code c => (closingOf? c).isSome || isClosing c
  | .region .. => false

/-- Whether the brackets among pieces are properly nested: each opening one is closed by one of its
kind, and what stands between the two is nested as well. -/
inductive Nested : List Piece → Prop
  | nil : Nested []
  | plain {p : Piece} {ps : List Piece} (plain : p.isBracket = false) (rest : Nested ps) :
      Nested (p :: ps)
  | pair {opening closing : Char} {inner ps : List Piece} (kind : closingOf? opening = some closing)
      (within : Nested inner) (rest : Nested ps) :
      Nested (.code opening :: (inner ++ .code closing :: ps))

/-- The closing brackets that are still to come after a word, next one first, if those before it
are given and each closing bracket of the word is the next one. -/
def pending : List Char → List Char → Option (List Char)
  | stack, [] => some stack
  | stack, c :: word =>
    match closingOf? c with
    | some closing => pending (closing :: stack) word
    | none =>
      if isClosing c then
        if stack.head? = some c then pending stack.tail word else none
      else pending stack word

section Pending

variable {stack word rest : List Char} {c closing : Char}

private theorem closingOf?_eq_some_iff {opening : Char} :
    closingOf? opening = some closing ↔
      opening = '(' ∧ closing = ')' ∨ opening = '[' ∧ closing = ']' ∨
        opening = '{' ∧ closing = '}' := by
  unfold closingOf?
  grind

private theorem closingOf?_closing {opening : Char} (kind : closingOf? opening = some closing) :
    closingOf? closing = none ∧ isClosing closing = true := by
  rcases closingOf?_eq_some_iff.mp kind with ⟨-, rfl⟩ | ⟨-, rfl⟩ | ⟨-, rfl⟩ <;> decide

private theorem pending_opening (kind : closingOf? c = some closing) :
    pending stack (c :: word) = pending (closing :: stack) word := by
  rw [pending, kind]

private theorem pending_closing {opening : Char} (kind : closingOf? opening = some closing) :
    pending (closing :: stack) (closing :: word) = pending stack word := by
  obtain ⟨none, closes⟩ := closingOf?_closing kind
  simp [pending, none, closes]

private theorem pending_plain (plain : (Piece.code c).isBracket = false) :
    pending stack (c :: word) = pending stack word := by
  simp only [Piece.isBracket, Bool.or_eq_false_iff, Option.isSome_eq_false_iff,
    Option.isNone_iff_eq_none] at plain
  simp [pending, plain.1, plain.2]

private theorem pending_append :
    pending stack (word ++ rest) = (pending stack word).bind (pending · rest) := by
  fun_induction pending stack word <;> simp_all [pending]

/-- Brackets that are to come later do not matter. -/
theorem pending_add {stack' : List Char} (reached : pending stack word = some stack')
    (later : List Char) : pending (stack ++ later) word = some (stack' ++ later) := by
  fun_induction pending stack word with
  | case1 stack => cases reached; rfl
  | case2 stack c word closing kind ih =>
    rw [pending_opening kind]
    exact ih reached
  | case3 stack c word none closes next ih =>
    obtain ⟨tail, rfl⟩ := List.head?_eq_some_iff.mp next
    simpa [pending, none, closes] using ih reached
  | case4 => cases reached
  | case5 stack c word none notClosing ih =>
    simpa [pending, none, notClosing] using ih reached

end Pending

namespace Nested

variable {ps qs : List Piece}

private theorem pending_codeOf (nested : Nested ps) (stack : List Char) :
    pending stack (codeOf ps) = some stack := by
  induction nested generalizing stack with
  | nil => rfl
  | @plain p ps plain rest ih =>
    cases p with
    | code c => rw [codeOf_cons_code, pending_plain plain, ih]
    | region kind body closed => rw [codeOf_cons_region, ih]
  | pair kind within rest ihWithin ihRest =>
    rw [codeOf_cons_code, pending_opening kind, codeOf_append, pending_append, ihWithin,
      Option.bind_some, codeOf_cons_code, pending_closing kind, ihRest]

/-- Pieces that end a nesting: up to each of the closing brackets to come, and behind the last one,
the brackets are nested. -/
def Ends : List Char → List Piece → Prop
  | [], ps => Nested ps
  | closing :: stack, ps =>
    ∃ inner rest, ps = inner ++ .code closing :: rest ∧ Nested inner ∧ Ends stack rest

private theorem Ends.plain {stack : List Char} {p : Piece} (ends : Ends stack ps)
    (plain : p.isBracket = false) : Ends stack (p :: ps) := by
  cases stack with
  | nil => exact Nested.plain plain ends
  | cons closing stack =>
    obtain ⟨inner, rest, rfl, nested, ends⟩ := ends
    exact ⟨p :: inner, rest, rfl, nested.plain plain, ends⟩

private theorem Ends.pair {stack : List Char} {opening closing : Char}
    (kind : closingOf? opening = some closing) (ends : Ends (closing :: stack) ps) :
    Ends stack (.code opening :: ps) := by
  obtain ⟨inner, rest, rfl, nested, ends⟩ := ends
  cases stack with
  | nil => exact Nested.pair kind nested ends
  | cons next stack =>
    obtain ⟨inner', rest, rfl, nested', ends⟩ := ends
    exact ⟨.code opening :: (inner ++ .code closing :: inner'), rest, by simp,
      .pair kind nested nested', ends⟩

private theorem ends_of_pending {stack : List Char}
    (reached : pending stack (codeOf ps) = some []) :
    Ends stack ps := by
  induction ps generalizing stack with
  | nil =>
    cases reached
    exact .nil
  | cons p ps ih =>
    cases p with
    | region kind body closed => exact (ih reached).plain rfl
    | code c =>
      rw [codeOf_cons_code, pending] at reached
      split at reached
      · next closing kind => exact (ih reached).pair kind
      · next none =>
        split at reached
        · split at reached
          · next next =>
            obtain ⟨tail, rfl⟩ := List.head?_eq_some_iff.mp next
            exact ⟨[], ps, rfl, .nil, ih reached⟩
          · cases reached
        · next notClosing => exact (ih reached).plain (by simp [Piece.isBracket, none, notClosing])

end Nested

/-- Brackets are nested if, read one by one, each closes the last one that is open. -/
theorem nested_iff_pending {ps : List Piece} : Nested ps ↔ pending [] (codeOf ps) = some [] :=
  ⟨fun nested => nested.pending_codeOf [], Nested.ends_of_pending⟩

instance (ps : List Piece) : Decidable (Nested ps) :=
  decidable_of_iff _ nested_iff_pending.symm

namespace Nested

variable {ps qs : List Piece}

private theorem append (first : Nested ps) (second : Nested qs) : Nested (ps ++ qs) := by
  rw [nested_iff_pending, codeOf_append, pending_append, first.pending_codeOf, Option.bind_some,
    second.pending_codeOf]

private theorem cons_iff {p : Piece} (plain : p.isBracket = false) : Nested
    (p :: ps) ↔ Nested ps := by
  cases p with
  | code c => rw [nested_iff_pending, codeOf_cons_code, pending_plain plain, nested_iff_pending]
  | region kind body closed => rw [nested_iff_pending, codeOf_cons_region, nested_iff_pending]

private theorem concat_iff {p : Piece} (plain : p.isBracket = false) : Nested
    (ps ++ [p]) ↔ Nested ps := by
  rw [nested_iff_pending, nested_iff_pending, codeOf_append, pending_append]
  cases p with
  | code c => simp [pending_plain plain, pending]
  | region kind body closed => simp [pending]

end Nested

private theorem Piece.isBracket_of_isBlank {c : Char} (blank : Text.isBlank c = true) :
    (Piece.code c).isBracket = false := by
  refine Bool.eq_false_iff.mpr fun bracket => ?_
  simp only [Piece.isBracket, isClosing, Bool.or_eq_true, Option.isSome_iff_exists,
    closingOf?_eq_some_iff, decide_eq_true_eq] at bracket
  rcases bracket with ⟨closing, ⟨rfl, -⟩ | ⟨rfl, -⟩ | ⟨rfl, -⟩⟩ | (rfl | rfl) | rfl <;>
    exact absurd blank (by decide)

/-- Blanks around a text are no brackets. -/
theorem Text.nested_trim_iff (t : Text) : Nested t.trim.pieces ↔ Nested t.pieces := by
  apply trim_induction (motive := fun s => Nested t.trim.pieces ↔ Nested s.pieces)
  · intro s c blank kept
    rw [kept, pieces_cons_blank s blank, Nested.cons_iff (Piece.isBracket_of_isBlank blank)]
  · intro s c blank kept
    rw [kept]
    rcases pieces_concat_blank s blank with read | ⟨before, kind, body, closed, read, read'⟩
    · rw [read, Nested.concat_iff (Piece.isBracket_of_isBlank blank)]
    · rw [read, read', Nested.concat_iff rfl, Nested.concat_iff rfl]
  · rfl

/-! ### Brackets around a place -/

/-- Whether a piece stands between two brackets that belong together, one among the pieces before it
and one among those behind it. -/
def Enclosed (before : List Piece) (p : Piece) (rest : List Piece) : Prop :=
  ∃ (front inner inner' back : List Piece) (opening closing : Char),
    closingOf? opening = some closing ∧ before = front ++ .code opening :: inner ∧
      rest = inner' ++ .code closing :: back ∧ Nested (inner ++ p :: inner')

private theorem Enclosed.append {before rest : List Piece} {p : Piece}
    (enclosed : Enclosed before p rest) (more : List Piece) : Enclosed (more ++ before) p rest := by
  obtain ⟨front, inner, inner', back, opening, closing, kind, rfl, rfl, nested⟩ := enclosed
  exact ⟨more ++ front, inner, inner', back, opening, closing, kind, by simp, rfl, nested⟩

/-- Behind nested brackets nothing is enclosed. -/
theorem Nested.not_enclosed {before rest : List Piece} {p : Piece} (nested : Nested before) :
    ¬Enclosed before p rest := by
  rintro ⟨front, inner, inner', back, opening, closing, kind, rfl, rfl, between⟩
  have whole := nested.pending_codeOf []
  have first := between.pending_codeOf []
  rw [codeOf_append, pending_append, Option.bind_eq_some_iff] at whole first
  obtain ⟨stack, -, whole⟩ := whole
  obtain ⟨stack', first, -⟩ := first
  -- The opening bracket is pending behind `front`, and nothing in `inner` closes it.
  have left := pending_add first (closing :: stack)
  rw [codeOf_cons_code, pending_opening kind] at whole
  rw [List.nil_append, whole] at left
  simp at left

/-! ### The commas of a call -/

namespace FormatCall

variable {depth : Nat} {ps inner : List Piece} {opening closing : Char}

private theorem argumentPieces_opening (kind : closingOf? opening = some closing) :
    argumentPieces depth (.code opening :: ps) =
      (argumentPieces (depth + 1) ps).modifyHead (.code opening :: ·) := by
  rcases closingOf?_eq_some_iff.mp kind with ⟨rfl, -⟩ | ⟨rfl, -⟩ | ⟨rfl, -⟩ <;> rfl

private theorem argumentPieces_closing (kind : closingOf? opening = some closing) :
    argumentPieces (depth + 1) (.code closing :: ps) =
      (argumentPieces depth ps).modifyHead (.code closing :: ·) := by
  rcases closingOf?_eq_some_iff.mp kind with ⟨-, rfl⟩ | ⟨-, rfl⟩ | ⟨-, rfl⟩ <;> rfl

private theorem argumentPieces_plain {p : Piece} (plain : p.isBracket = false)
    (kept : p ≠ .code ',' ∨ depth ≠ 0) :
    argumentPieces depth (p :: ps) = (argumentPieces depth ps).modifyHead (p :: ·) := by
  cases p with
  | region kind body closed => rfl
  | code c =>
    have notOpening : ¬(c = '(' ∨ c = '[' ∨ c = '{') := by
      rintro (rfl | rfl | rfl) <;> exact absurd plain (by decide)
    have notClosing : ¬(c = ')' ∨ c = ']' ∨ c = '}') := by
      rintro (rfl | rfl | rfl) <;> exact absurd plain (by decide)
    have notComma : ¬(c = ',' ∧ depth = 0) := by
      rintro ⟨rfl, rfl⟩
      exact kept.elim (absurd rfl) (absurd rfl)
    rw [argumentPieces, if_neg notOpening, if_neg notClosing, if_neg notComma]

private theorem argumentPieces_comma : argumentPieces 0 (.code ',' :: ps) =
    [] :: argumentPieces 0 ps :=
  rfl

/-- Between brackets no comma counts. -/
theorem argumentPieces_nested_append (nested : Nested inner) :
    argumentPieces (depth + 1) (inner ++ ps) =
      (argumentPieces (depth + 1) ps).modifyHead (inner ++ ·) := by
  induction nested generalizing depth ps with
  | nil =>
    rw [List.nil_append]
    cases argumentPieces (depth + 1) ps <;> rfl
  | plain plain rest ih =>
    rw [List.cons_append, argumentPieces_plain plain (.inr (Nat.succ_ne_zero _)), ih,
      List.modifyHead_modifyHead]
    rfl
  | pair kind within rest ihWithin ihRest =>
    rw [List.cons_append, argumentPieces_opening kind, List.append_assoc, ihWithin,
      List.cons_append, argumentPieces_closing kind, ihRest, List.modifyHead_modifyHead,
      List.modifyHead_modifyHead, List.modifyHead_modifyHead]
    congr 1
    funext part
    simp

/-- A pair of brackets is passed over with all that stands in it. -/
theorem argumentPieces_pair (kind : closingOf? opening = some closing) (nested : Nested inner) :
    argumentPieces 0 (.code opening :: (inner ++ .code closing :: ps)) =
      (argumentPieces 0 ps).modifyHead ((.code opening :: (inner ++ [.code closing])) ++ ·) := by
  rw [argumentPieces_opening kind, argumentPieces_nested_append nested, argumentPieces_closing kind,
    List.modifyHead_modifyHead, List.modifyHead_modifyHead]
  congr 1
  funext part
  simp

/-- The brackets of each argument are nested. -/
theorem nested_of_mem_argumentPieces (nested : Nested ps) :
    ∀ part ∈ argumentPieces 0 ps, Nested part := by
  induction nested with
  | nil => simp [argumentPieces, Nested.nil]
  | @plain p ps plain rest ih =>
    by_cases comma : p = .code ','
    · subst comma
      rw [argumentPieces_comma, List.forall_mem_cons]
      exact ⟨.nil, ih⟩
    · rw [argumentPieces_plain plain (.inl comma)]
      exact forall_mem_modifyHead ih fun part nested => nested.plain plain
  | pair kind within rest ihWithin ihRest =>
    rw [argumentPieces_pair kind within]
    refine forall_mem_modifyHead ihRest fun part nested => ?_
    exact (Nested.pair kind within .nil).append nested

/-- Whether a comma, with pieces before and behind it, is one of those between which parts stand. -/
def Divides (parts : List (List Piece)) (before rest : List Piece) : Prop :=
  ∃ left right, left ≠ [] ∧ right ≠ [] ∧ parts = left ++ right ∧
    before = List.intercalate [.code ','] left ∧ rest = List.intercalate [.code ','] right

/-- More pieces in front of the first part. -/
theorem Divides.modifyHead {parts : List (List Piece)} {before rest : List Piece}
    (divides : Divides parts before rest) (more : List Piece) :
    Divides (parts.modifyHead (more ++ ·)) (more ++ before) rest := by
  obtain ⟨left, right, some, some', rfl, rfl, rfl⟩ := divides
  refine ⟨left.modifyHead (more ++ ·), right, by simpa using some, some', ?_,
    (intercalate_modifyHead some).symm, rfl⟩
  cases left with
  | nil => exact absurd rfl some
  | cons part left => rfl

private theorem not_comma_of_kind (kind : closingOf? opening = some closing) :
    opening ≠ ',' ∧ closing ≠ ',' := by
  rcases closingOf?_eq_some_iff.mp kind with ⟨rfl, rfl⟩ | ⟨rfl, rfl⟩ | ⟨rfl, rfl⟩ <;> decide

/-- A comma among nested brackets divides arguments unless brackets enclose it. -/
theorem divides_or_enclosed (nested : Nested ps) {before rest : List Piece}
    (comma : ps = before ++ .code ',' :: rest) :
    Divides (argumentPieces 0 ps) before rest ∨ Enclosed before (.code ',') rest := by
  induction nested generalizing before with
  | nil => simp at comma
  | @plain p ps plain nested ih =>
    cases before with
    | nil =>
      obtain ⟨rfl, rfl⟩ := List.cons.inj comma
      obtain ⟨joined, nonempty⟩ := intercalate_argumentPieces 0 ps
      exact .inl ⟨[[]], argumentPieces 0 ps, by simp, nonempty, rfl,
        List.intercalate_singleton.symm, joined.symm⟩
    | cons q before =>
      obtain ⟨rfl, inside⟩ := List.cons.inj comma
      rcases ih inside with divides | enclosed
      · left
        by_cases isComma : p = .code ','
        · subst isComma
          obtain ⟨left, right, some, some', whole, rfl, rfl⟩ := divides
          refine ⟨[] :: left, right, by simp, some', ?_, ?_, rfl⟩
          · rw [argumentPieces_comma, whole, List.cons_append]
          · rw [List.intercalate_cons_of_ne_nil some]
            rfl
        · rw [argumentPieces_plain plain (.inl isComma)]
          exact divides.modifyHead [p]
      · exact .inr (enclosed.append [p])
  | @pair opening closing inner ps kind within nested ihWithin ih =>
    obtain ⟨other, other'⟩ := not_comma_of_kind kind
    cases before with
    | nil => exact absurd (Piece.code.inj (List.cons.inj comma).1) other
    | cons q before =>
      obtain ⟨rfl, inside⟩ := List.cons.inj comma
      rcases List.append_eq_append_iff.mp inside with ⟨more, rfl, behind⟩ | ⟨more, rfl, behind⟩
      · -- The comma stands behind the pair.
        cases more with
        | nil => exact absurd (Piece.code.inj (List.cons.inj behind).1) other'
        | cons q more =>
          obtain ⟨rfl, later⟩ := List.cons.inj behind
          have front : (.code opening :: (inner ++ .code closing :: more) : List Piece) =
              (.code opening :: (inner ++ [.code closing])) ++ more := by simp
          rw [argumentPieces_pair kind within, front]
          exact (ih later).imp (·.modifyHead _) (·.append _)
      · -- The comma stands in the pair.
        cases more with
        | nil => exact absurd (Piece.code.inj (List.cons.inj behind).1).symm other'
        | cons q more =>
          obtain ⟨rfl, rfl⟩ := List.cons.inj behind
          exact .inr ⟨[], before, more, ps, opening, closing, kind, rfl, rfl, within⟩

private theorem nested_intercalate {parts : List (List Piece)}
    (each : ∀ part ∈ parts, Nested part) :
    Nested (List.intercalate [.code ','] parts) := by
  induction parts with
  | nil => exact .nil
  | cons part parts ih =>
    rw [List.forall_mem_cons] at each
    cases parts with
    | nil => simpa [List.intercalate_singleton] using each.1
    | cons next parts =>
      rw [List.intercalate_cons_cons, List.append_assoc]
      exact each.1.append (.plain rfl (ih each.2))

/-- No brackets enclose the commas between arguments. -/
theorem Divides.not_enclosed (nested : Nested ps) {before rest : List Piece}
    (divides : Divides (argumentPieces 0 ps) before rest) :
    ¬Enclosed before (.code ',') rest := by
  obtain ⟨left, right, -, -, whole, rfl, -⟩ := divides
  have each := nested_of_mem_argumentPieces nested
  rw [whole] at each
  exact (nested_intercalate fun part member =>
    each part (List.mem_append_left _ member)).not_enclosed

/-- Without commas there is one argument. -/
theorem argumentPieces_of_not_mem (absent : .code ',' ∉ ps) : argumentPieces depth ps = [ps] := by
  fun_induction argumentPieces depth ps <;> simp_all

/-- Blanks alone are no argument; otherwise the arguments are the trimmed parts. -/
theorem arguments_eq (inside : List Piece) :
    arguments inside = if (spell inside).trim = [] then []
      else (argumentPieces 0 inside).map fun part => (spell part).trim := by
  have blank : ((argumentPieces 0 inside).map fun part => (spell part).trim) = [[]] ↔
      (spell inside).trim = [] := by
    constructor
    · intro single
      obtain ⟨part, only, empty⟩ := List.map_eq_singleton_iff.mp single
      have joined := (intercalate_argumentPieces 0 inside).1
      rw [only, List.intercalate_singleton] at joined
      rw [← joined, empty]
    · intro empty
      have absent : .code ',' ∉ inside := by
        intro member
        have comma : ',' ∈ spell inside :=
          List.mem_flatMap.mpr ⟨_, member, List.mem_singleton_self _⟩
        exact absurd (Text.trim_eq_nil_iff.mp empty _ comma) (by decide)
      rw [argumentPieces_of_not_mem absent, List.map_singleton, empty]
  simp only [arguments, blank]

/-- Where the brackets between the parentheses of a call are nested, a comma divides two arguments
exactly if it is code and no brackets enclose it. The arguments are what stands between these
commas, without the blanks around it and with nested brackets again, and the expansion puts a
substitution for each of them between the literal and what follows the parentheses. -/
theorem arguments_of_nested {t : Text} {call : FormatCall} {inside after : List Piece}
    (found : find? t.pieces = some call)
    (closes : splitAtClose? '(' ')' 0 call.rest = some (inside, after)) (nested : Nested inside) :
    ∃ parts : List (List Piece),
      List.intercalate [.code ','] parts = inside ∧
      (∀ u v : Text, spell inside = u ++ ',' :: v →
        ((∃ before rest, Divides parts before rest ∧ u = spell before ∧ v = spell rest) ↔
          ∃ before rest, inside = before ++ .code ',' :: rest ∧ u = spell before ∧
            v = spell rest ∧ ¬Enclosed before (.code ',') rest)) ∧
      arguments inside = (if (spell inside).trim = [] then []
        else parts.map fun part => (spell part).trim) ∧
      (∀ argument ∈ arguments inside, Nested argument.pieces) ∧
      t = call.literal ++ call.percent ++ '(' :: (spell inside ++ ')' :: spell after) ∧
      t.expandFirst = .ok (some
        (call.literal ++ (arguments inside).flatMap substitution ++ spell after)) := by
  obtain ⟨before, body, gap, gap', whole, literal, percent, -⟩ := exists_of_find? found
  have rest := (eq_of_splitAtClose? closes).1
  have joined := (intercalate_argumentPieces 0 inside).1
  have part : inside <:+: t.pieces := by
    rw [whole, rest]
    exact ⟨before ++ .region .string body true ::
      (gap.map .code ++ .code '%' :: (gap'.map .code ++ [.code '('])), .code ')' :: after, by simp⟩
  refine ⟨argumentPieces 0 inside, joined, ?_, arguments_eq inside, ?_, ?_, ?_⟩
  · rintro u v -
    constructor
    · rintro ⟨before, rest, divides, rfl, rfl⟩
      refine ⟨before, rest, ?_, rfl, rfl, divides.not_enclosed nested⟩
      obtain ⟨left, right, some, some', parts, rfl, rfl⟩ := divides
      rw [← joined, parts, intercalate_append some some', List.append_assoc]
      rfl
    · rintro ⟨before, rest, comma, rfl, rfl, free⟩
      exact ⟨before, rest, (divides_or_enclosed nested comma).resolve_right free, rfl, rfl⟩
  · intro argument member
    have trimmed : argument ∈ (argumentPieces 0 inside).map fun part => (spell part).trim := by
      rw [arguments_eq] at member
      split at member
      · cases member
      · exact member
    obtain ⟨own, listed, rfl⟩ := List.mem_map.mp trimmed
    rw [Text.nested_trim_iff,
      Text.pieces_spell_part ((isInfix_of_mem_argumentPieces listed).trans part)]
    exact nested_of_mem_argumentPieces nested own listed
  · have text := congrArg spell whole
    rw [Text.spell_pieces, rest] at text
    rw [text, literal, percent]
    simp [Piece.text]
  · rw [Text.expandFirst, found]
    dsimp only
    rw [closes]

/-- Commas in brackets, in a literal and in a comment divide no arguments. -/
theorem arguments_of_two_calls :
    let t : Text := "s = \"%s: %s\" % (f(a, \"x, y\"), g[1, 2] /* , */);"
    let inside := Text.pieces "f(a, \"x, y\"), g[1, 2] /* , */"
    let call : FormatCall := ⟨"s = \"%s: %s\"", " % ", inside ++ .code ')' :: Text.pieces ";"⟩
    find? t.pieces = some call ∧
      splitAtClose? '(' ')' 0 call.rest = some (inside, Text.pieces ";") ∧ Nested inside ∧
      ∃ parts, List.intercalate [.code ','] parts = inside ∧
        (parts.map fun part => (spell part).trim) =
          ["f(a, \"x, y\")".toList, "g[1, 2] /* , */".toList] := by
  intro t inside call
  have found : find? t.pieces = some call := by decide +kernel
  have closes : splitAtClose? '(' ')' 0 call.rest = some (inside, Text.pieces ";") := by
    decide +kernel
  have nested : Nested inside := by decide +kernel
  obtain ⟨parts, joined, -, listed, -⟩ := arguments_of_nested found closes nested
  rw [if_neg (by decide +kernel)] at listed
  refine ⟨found, closes, nested, parts, joined, listed.symm.trans ?_⟩
  decide +kernel

end FormatCall

end ScriptLoom
