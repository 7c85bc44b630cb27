import Mathlib.Order.Bounds.Basic
import ScriptLoom.Proofs.Braces
import ScriptLoom.Proofs.Lists
import ScriptLoom.Proofs.Places

/-! # Partners of braces

The check of a script pairs braces with a stack that goes through the whole text
(`Verification.openAfter`); the search for the end of a block counts the depth from the brace that
opens the block and stops at depth zero. On every text, balanced or not, both give a brace the same
partner, the one that first closes all that the brace and what follows it open, and both leave the
same braces without one (`Verification.matching_agrees_with_check`).
-/

namespace ScriptLoom

/-! ### Code characters in order -/

private theorem pairwise_codeFrom (start : Nat) (ps : List Piece) :
    (codeFrom start ps).Pairwise (·.1 < ·.1) := by
  induction ps generalizing start with
  | nil => exact .nil
  | cons p ps ih =>
    cases p with
    | code c =>
      refine List.pairwise_cons.mpr ⟨?_, ih _⟩
      rintro ⟨i, d⟩ later
      have bound := (of_mem_codeFrom later).1
      have positive := c.utf8Size_pos
      dsimp only
      omega
    | region kind body closed => exact ih _

/-- What the code before and behind a place is, by offset. -/
theorem Text.offsets_of_code_eq {t : Text} {before rest : List (Nat × Char)} {p : Nat} {c : Char}
    (split : t.code = before ++ (p, c) :: rest) :
    (∀ place ∈ before, place.1 < p) ∧ ∀ place ∈ rest, p < place.1 := by
  have ascending : t.code.Pairwise (·.1 < ·.1) := pairwise_codeFrom 0 t.pieces
  rw [split, List.pairwise_append, List.pairwise_cons] at ascending
  obtain ⟨-, ⟨late, -⟩, early⟩ := ascending
  exact ⟨fun place member => early place member _ List.mem_cons_self, late⟩

/-- The code characters in a range of offsets, both ends included. -/
def Text.codeWithin (t : Text) (start stop : Nat) : Text :=
  (t.code.filter fun (i, _) => start ≤ i && i ≤ stop).map (·.2)

/-! ### The search by depth -/

section Search

variable {opening closing : Char} {depth : Nat} {places : List (Nat × Char)}

/-- A search either meets the bracket that closes what is open, or it ends inside of it. -/
theorem matchFrom_cases (differ : opening ≠ closing) (depth : Nat) (places : List (Nat × Char)) :
    (matchFrom opening closing (depth + 1) places = none ∧
      ∃ final, nesting opening closing depth (places.map (·.2)) = some final) ∨
    ∃ inside q after, places = inside ++ (q, closing) :: after ∧
      nesting opening closing depth (inside.map (·.2)) = some 0 ∧
      matchFrom opening closing (depth + 1) places = some q := by
  induction places generalizing depth with
  | nil => exact .inl ⟨rfl, depth, rfl⟩
  | cons place places ih =>
    obtain ⟨i, c⟩ := place
    -- What goes on at another depth goes on behind this character too.
    have step : ∀ depth', nesting opening closing depth [c] = some depth' →
        matchFrom opening closing (depth + 1) ((i, c) :: places) =
          matchFrom opening closing (depth' + 1) places →
        (matchFrom opening closing (depth + 1) ((i, c) :: places) = none ∧
          ∃ final, nesting opening closing depth (((i, c) :: places).map (·.2)) = some final) ∨
        ∃ inside q after, (i, c) :: places = inside ++ (q, closing) :: after ∧
          nesting opening closing depth (inside.map (·.2)) = some 0 ∧
          matchFrom opening closing (depth + 1) ((i, c) :: places) = some q := by
      intro depth' one same
      rw [same]
      rcases ih depth' with ⟨none, final, reached⟩ | ⟨inside, q, after, rfl, reached, found⟩
      · exact .inl ⟨none, final, nesting_append_eq_some.mpr ⟨depth', one, reached⟩⟩
      · exact .inr ⟨(i, c) :: inside, q, after, rfl,
          nesting_append_eq_some.mpr ⟨depth', one, reached⟩, found⟩
    by_cases isOpening : c = opening
    · subst isOpening
      exact step (depth + 1) nesting_cons_opening (by simp only [matchFrom, if_true])
    · by_cases isClosing : c = closing
      · subst isClosing
        cases depth with
        | zero =>
          refine .inr ⟨[], i, places, rfl, rfl, ?_⟩
          rw [matchFrom, if_neg isOpening, if_pos rfl]
        | succ depth =>
          exact step depth (nesting_cons_closing differ)
            (by rw [matchFrom, if_neg isOpening, if_pos rfl])
      · exact step depth (nesting_cons_other isOpening isClosing)
          (by simp only [matchFrom, if_neg isOpening, if_neg isClosing])

private theorem Text.matchingBracket?_of_code_eq {t : Text} {before rest : List (Nat × Char)}
    {p : Nat} (split : t.code = before ++ (p, opening) :: rest) :
    t.matchingBracket? p opening closing = matchFrom opening closing 1 rest := by
  have early : ∀ place ∈ before, decide (place.1 < p) = true := fun place member =>
    decide_eq_true ((offsets_of_code_eq split).1 place member)
  rw [matchingBracket?, split, List.dropWhile_append_of_pos early,
    List.dropWhile_cons_of_neg (by simp), matchFrom, if_pos rfl]

end Search

/-! ### The stack of the check -/

namespace Verification

/-- The places of the braces that are open after some code, innermost first, given those open
before it. -/
def openAfter (opened : List Nat) : List (Nat × Char) → List Nat
  | [] => opened
  | (i, c) :: rest =>
    if c = '{' then openAfter (i :: opened) rest
    else if c = '}' then openAfter opened.tail rest
    else openAfter opened rest

/-- Whether the closing brace at `q` takes the brace at `p` off the stack. -/
def Pops (code : List (Nat × Char)) (p q : Nat) : Prop :=
  ∃ before after outer, code = before ++ (q, '}') :: after ∧ openAfter [] before = p :: outer

variable {opened : List Nat} {places : List (Nat × Char)} {i : Nat}

private theorem openAfter_append (opened : List Nat) (before after : List (Nat × Char)) :
    openAfter opened (before ++ after) = openAfter (openAfter opened before) after := by
  induction before generalizing opened with
  | nil => rfl
  | cons place before ih =>
    obtain ⟨i, c⟩ := place
    simp only [List.cons_append, openAfter]
    split
    · exact ih _
    · split
      · exact ih _
      · exact ih _

private theorem mem_of_mem_openAfter (member : i ∈ openAfter opened places) :
    i ∈ opened ∨ (i, '{') ∈ places := by
  induction places generalizing opened with
  | nil => exact .inl member
  | cons place places ih =>
    obtain ⟨j, c⟩ := place
    rw [openAfter] at member
    split at member
    · next same =>
      subst same
      rcases ih member with inside | later
      · rcases List.mem_cons.mp inside with rfl | inside
        · exact .inr List.mem_cons_self
        · exact .inl inside
      · exact .inr (List.mem_cons_of_mem _ later)
    · split at member
      · rcases ih member with inside | later
        · exact .inl (List.mem_of_mem_tail inside)
        · exact .inr (List.mem_cons_of_mem _ later)
      · rcases ih member with inside | later
        · exact .inl inside
        · exact .inr (List.mem_cons_of_mem _ later)

/-- Code that closes no more than the innermost braces leaves the others on the stack. -/
theorem exists_openAfter_of_nesting (inner outer : List Nat) {final : Nat}
    (reached : nesting '{' '}' inner.length (places.map (·.2)) = some final) :
    ∃ left, left.length = final ∧ openAfter (inner ++ outer) places = left ++ outer ∧
      ∀ i ∈ left, i ∈ inner ∨ (i, '{') ∈ places := by
  induction places generalizing inner with
  | nil =>
    cases reached
    exact ⟨inner, rfl, rfl, fun i member => .inl member⟩
  | cons place places ih =>
    obtain ⟨j, c⟩ := place
    simp only [List.map_cons, nesting] at reached
    simp only [openAfter]
    split at reached
    · next same =>
      subst same
      obtain ⟨left, deep, after, from'⟩ := ih (j :: inner) reached
      refine ⟨left, deep, after, fun i member => ?_⟩
      rcases from' i member with inside | later
      · rcases List.mem_cons.mp inside with rfl | inside
        · exact .inr List.mem_cons_self
        · exact .inl inside
      · exact .inr (List.mem_cons_of_mem _ later)
    · next notOpening =>
      rw [if_neg notOpening]
      split at reached
      · next same =>
        rw [if_pos same]
        cases inner with
        | nil => cases reached
        | cons k inner =>
          obtain ⟨left, deep, after, from'⟩ := ih inner reached
          refine ⟨left, deep, after, fun i member => ?_⟩
          rcases from' i member with inside | later
          · exact .inl (List.mem_cons_of_mem _ inside)
          · exact .inr (List.mem_cons_of_mem _ later)
      · next notClosing =>
        rw [if_neg notClosing]
        obtain ⟨left, deep, after, from'⟩ := ih inner reached
        refine ⟨left, deep, after, fun i member => ?_⟩
        exact (from' i member).imp_right (List.mem_cons_of_mem _)

/-- The check reads on with the stack that the code before leaves. -/
theorem exists_unmatchedBraces_append (opened : List Nat) (before after : List (Nat × Char)) :
    ∃ strays, unmatchedBraces opened (before ++ after) =
      strays ++ unmatchedBraces (openAfter opened before) after := by
  induction before generalizing opened with
  | nil => exact ⟨[], rfl⟩
  | cons place before ih =>
    obtain ⟨i, c⟩ := place
    simp only [List.cons_append, unmatchedBraces, openAfter]
    split
    · exact ih _
    · split
      · cases opened with
        | nil =>
          obtain ⟨strays, rest⟩ := ih []
          exact ⟨(i, .strayClosing '}') :: strays, congrArg _ rest⟩
        | cons _ outer => exact ih outer
      · exact ih _

/-- The check complains about the closing braces that find the stack empty, and about the braces on
the stack at the end. -/
theorem mem_unmatchedBraces_iff {problem : Problem} :
    (i, problem) ∈ unmatchedBraces opened places ↔
      (problem = .openBrace ∧ i ∈ openAfter opened places) ∨
      (problem = .strayClosing '}' ∧ ∃ before after,
        places = before ++ (i, '}') :: after ∧ openAfter opened before = []) := by
  constructor
  · intro member
    induction places generalizing opened with
    | nil =>
      obtain ⟨j, listed, same⟩ := List.mem_map.mp member
      cases same
      exact .inl ⟨rfl, List.mem_reverse.mp listed⟩
    | cons place places ih =>
      obtain ⟨j, c⟩ := place
      -- A complaint about what follows is one about the whole.
      have later : ∀ opened', openAfter opened [(j, c)] = opened' →
          (i, problem) ∈ unmatchedBraces opened' places →
          (problem = .openBrace ∧ i ∈ openAfter opened ((j, c) :: places)) ∨
          (problem = .strayClosing '}' ∧ ∃ before after,
            (j, c) :: places = before ++ (i, '}') :: after ∧ openAfter opened before = []) := by
        rintro _ rfl rest
        rcases ih rest with ⟨rfl, onStack⟩ | ⟨rfl, before, after, rfl, empty⟩
        · refine .inl ⟨rfl, ?_⟩
          rwa [← List.singleton_append, openAfter_append]
        · refine .inr ⟨rfl, (j, c) :: before, after, rfl, ?_⟩
          rwa [← List.singleton_append, openAfter_append]
      simp only [unmatchedBraces] at member
      split at member
      · next same => exact later _ (by rw [openAfter, if_pos same, openAfter]) member
      · next notOpening =>
        split at member
        · next same =>
          have popped : openAfter opened [(j, c)] = opened.tail := by
            rw [openAfter, if_neg notOpening, if_pos same, openAfter]
          cases opened with
          | nil =>
            rcases List.mem_cons.mp member with own | rest
            · cases own
              subst same
              exact .inr ⟨rfl, [], places, rfl, rfl⟩
            · exact later [] popped rest
          | cons k outer => exact later outer popped member
        · next notClosing =>
          exact later _ (by rw [openAfter, if_neg notOpening, if_neg notClosing, openAfter]) member
  · rintro (⟨rfl, onStack⟩ | ⟨rfl, before, after, rfl, empty⟩)
    · obtain ⟨strays, whole⟩ := exists_unmatchedBraces_append opened places []
      rw [List.append_nil] at whole
      rw [whole]
      exact List.mem_append_right _ (List.mem_map_of_mem (List.mem_reverse.mpr onStack))
    · obtain ⟨strays, whole⟩ := exists_unmatchedBraces_append opened before ((i, '}') :: after)
      rw [whole, empty]
      exact List.mem_append_right _ List.mem_cons_self

/-! ### Partners -/

/-- A block that is closed leaves the stack as it found it, but for the brace that opens it. -/
theorem openAfter_cons_of_nesting {p : Nat} {inside : List (Nat × Char)}
    (nested : nesting '{' '}' 0 (inside.map (·.2)) = some 0) (opened : List Nat) :
    openAfter opened ((p, '{') :: inside) = p :: opened := by
  obtain ⟨left, none, after, -⟩ := exists_openAfter_of_nesting [] (p :: opened) nested
  rw [List.length_eq_zero_iff.mp none] at after
  rw [openAfter, if_pos rfl]
  exact after

variable {t : Text} {p q : Nat}

/-- A brace that has been closed is not on the stack any more. -/
theorem not_mem_openAfter_of_closed {front inside rest more : List (Nat × Char)}
    (split : t.code = front ++ (p, '{') :: (inside ++ (q, '}') :: (rest ++ more)))
    (nested : nesting '{' '}' 0 (inside.map (·.2)) = some 0) :
    p ∉ openAfter [] (front ++ (p, '{') :: (inside ++ (q, '}') :: rest)) := by
  obtain ⟨early, late⟩ := Text.offsets_of_code_eq split
  have closed : openAfter [] (front ++ (p, '{') :: (inside ++ (q, '}') :: rest)) =
      openAfter (openAfter [] front) rest := by
    rw [openAfter_append, ← List.cons_append, openAfter_append, openAfter_cons_of_nesting nested]
    rfl
  rw [closed]
  intro member
  rcases mem_of_mem_openAfter member with before | behind
  · rcases mem_of_mem_openAfter before with none | before
    · cases none
    · exact Nat.lt_irrefl _ (early _ before)
  · refine Nat.lt_irrefl _ (late (p, '{') ?_)
    exact List.mem_append_right _ (List.mem_cons_of_mem _ (List.mem_append_left _ behind))

/-- The partner that the search gives a brace is the one that takes it off the stack. -/
theorem matchingBracket?_eq_some_iff_pops (brace : (p, '{') ∈ t.code) :
    t.matchingBracket? p '{' '}' = some q ↔ Pops t.code p q := by
  constructor
  · intro found
    obtain ⟨front, rest, split⟩ := List.append_of_mem brace
    rw [Text.matchingBracket?_of_code_eq split] at found
    rcases matchFrom_cases (by decide : '{' ≠ '}') 0 rest with
      ⟨missed, -⟩ | ⟨inside, q', after, rfl, nested, found'⟩
    · rw [missed] at found
      cases found
    · rw [found'] at found
      cases found
      refine ⟨front ++ (p, '{') :: inside, after, openAfter [] front, by rw [split]; simp, ?_⟩
      rw [openAfter_append, openAfter_cons_of_nesting nested]
  · rintro ⟨before, after, outer, split, top⟩
    have pushed : (p, '{') ∈ before := by
      have onStack : p ∈ openAfter [] before := by rw [top]; exact List.mem_cons_self
      exact (mem_of_mem_openAfter onStack).resolve_left List.not_mem_nil
    obtain ⟨front, inside, rfl⟩ := List.append_of_mem pushed
    have split' : t.code = front ++ (p, '{') :: (inside ++ (q, '}') :: after) := by
      rw [split]
      simp
    rw [Text.matchingBracket?_of_code_eq split']
    rcases matchFrom_cases (by decide : '{' ≠ '}') 0 inside with
      ⟨-, final, reached⟩ | ⟨block, q', rest, rfl, nested, -⟩
    · -- The braces that are still open inside stand on top of the one at `p`.
      obtain ⟨left, deep, stack, pushedInside⟩ := exists_openAfter_of_nesting []
        (p :: openAfter [] front) reached
      have whole : left ++ p :: openAfter [] front = p :: outer := by
        rw [← top, openAfter_append, openAfter, if_pos rfl, ← stack]
        rfl
      cases left with
      | nil =>
        obtain rfl : final = 0 := deep.symm
        rw [matchFrom_append reached, matchFrom, if_neg (by decide), if_pos rfl]
      | cons i left =>
        obtain rfl := (List.cons.inj whole).1
        have later := (pushedInside i List.mem_cons_self).resolve_left List.not_mem_nil
        exact absurd ((Text.offsets_of_code_eq split').2 _ (List.mem_append_left _ later))
          (Nat.lt_irrefl _)
    · have split'' : t.code =
          front ++ (p, '{') :: (block ++ (q', '}') :: (rest ++ (q, '}') :: after)) := by
        rw [split']
        simp
      have gone := not_mem_openAfter_of_closed split'' nested
      rw [top] at gone
      exact absurd List.mem_cons_self gone

/-- The search gives a brace no partner exactly if the brace stays on the stack. -/
theorem matchingBracket?_eq_none_iff_mem_openAfter (brace : (p, '{') ∈ t.code) :
    t.matchingBracket? p '{' '}' = none ↔ p ∈ openAfter [] t.code := by
  obtain ⟨front, rest, split⟩ := List.append_of_mem brace
  rw [Text.matchingBracket?_of_code_eq split]
  rcases matchFrom_cases (by decide : '{' ≠ '}') 0 rest with
    ⟨missed, final, reached⟩ | ⟨inside, q, after, rfl, nested, found⟩
  · obtain ⟨left, -, stack, -⟩ := exists_openAfter_of_nesting []
      (p :: openAfter [] front) reached
    rw [split, openAfter_append, openAfter, if_pos rfl, ← List.nil_append (p :: _), stack]
    simp [missed]
  · have split' : t.code = front ++ (p, '{') :: (inside ++ (q, '}') :: (after ++ [])) := by
      rw [split, List.append_nil]
    have gone := not_mem_openAfter_of_closed split' nested
    rw [← split] at gone
    simp [found, gone]

/-! ### The first balanced range -/

private theorem codeWithin_of_code_eq {c : Char} {front rest : List (Nat × Char)}
    (split : t.code = front ++ (p, c) :: rest) (reached : p ≤ q) :
    t.codeWithin p q = c :: (rest.filter (·.1 ≤ q)).map (·.2) := by
  obtain ⟨early, late⟩ := Text.offsets_of_code_eq split
  have none : front.filter (fun (i, _) => decide (p ≤ i) && decide (i ≤ q)) = [] := by
    refine List.filter_eq_nil_iff.mpr fun place member => ?_
    have := early place member
    simp only [Bool.and_eq_true, decide_eq_true_eq]
    omega
  have same : rest.filter (fun (i, _) => decide (p ≤ i) && decide (i ≤ q)) =
      rest.filter (·.1 ≤ q) := by
    refine List.filter_congr fun place member => ?_
    have behind := decide_eq_true (Nat.le_of_lt (late place member))
    simp only [behind, Bool.true_and]
  rw [Text.codeWithin, split, List.filter_append, none, List.nil_append,
    List.filter_cons_of_pos (by simpa using reached), same, List.map_cons]

/-- What is open before a depth is reached again is not balanced with the brace before it. -/
theorem not_balanced_of_isPrefix {inside part : List (Nat × Char)} {final : Nat}
    (reached : nesting '{' '}' 0 (inside.map (·.2)) = some final) (start : part <+: inside) :
    ¬Balanced '{' '}' ('{' :: part.map (·.2)) := by
  obtain ⟨rest, rfl⟩ := start
  rw [List.map_append] at reached
  obtain ⟨depth, first, -⟩ := nesting_append_eq_some.mp reached
  rw [balanced_iff_nesting (by decide), nesting_cons_opening, nesting_add first 1]
  simp

/-- The partner of a brace ends the first range from the brace on in which the braces are
balanced. -/
theorem matchingBracket?_eq_some_iff_isLeast (brace : (p, '{') ∈ t.code) :
    t.matchingBracket? p '{' '}' = some q ↔
      IsLeast {q | p < q ∧ Balanced '{' '}' (t.codeWithin p q)} q := by
  obtain ⟨front, rest, split⟩ := List.append_of_mem brace
  have ascending : rest.Pairwise (·.1 < ·.1) := by
    have all : t.code.Pairwise (·.1 < ·.1) := pairwise_codeFrom 0 t.pieces
    rw [split] at all
    exact (List.pairwise_cons.mp (List.pairwise_append.mp all).2.1).2
  have within : ∀ {bound}, p < bound →
      t.codeWithin p bound = '{' :: (rest.filter (·.1 ≤ bound)).map (·.2) := fun behind =>
    codeWithin_of_code_eq split (Nat.le_of_lt behind)
  rw [Text.matchingBracket?_of_code_eq split]
  rcases matchFrom_cases (by decide : '{' ≠ '}') 0 rest with
    ⟨missed, final, reached⟩ | ⟨inside, r, after, rfl, nested, found⟩
  · rw [missed]
    refine ⟨by simp, fun least => ?_⟩
    obtain ⟨behind, balanced⟩ := least.1
    rw [within behind] at balanced
    exact absurd balanced
      (not_balanced_of_isPrefix reached (filter_isPrefix_of_pairwise ascending _))
  · have least : IsLeast {q | p < q ∧ Balanced '{' '}' (t.codeWithin p q)} r := by
      have split' : t.code = (front ++ (p, '{') :: inside) ++ (r, '}') :: after := by
        rw [split]
        simp
      obtain ⟨early, late⟩ := Text.offsets_of_code_eq split'
      have behind : p < r := early (p, '{') (by simp)
      refine ⟨⟨behind, ?_⟩, ?_⟩
      · have all : (inside ++ (r, '}') :: after).filter (·.1 ≤ r) = inside ++ [(r, '}')] := by
          rw [List.filter_append, List.filter_cons_of_pos (by simp), List.filter_eq_self.mpr,
            List.filter_eq_nil_iff.mpr]
          · intro place member
            simpa using late place member
          · intro place member
            have := early place (by simp [member])
            exact decide_eq_true (Nat.le_of_lt this)
        rw [within behind, all, balanced_iff_nesting (by decide), nesting_cons_opening,
          List.map_append]
        exact nesting_append_eq_some.mpr ⟨1, nesting_add nested 1, rfl⟩
      · rintro bound ⟨behind', balanced⟩
        by_contra sooner
        rw [Nat.not_le] at sooner
        have none : ((r, '}') :: after).filter (·.1 ≤ bound) = [] := by
          refine List.filter_eq_nil_iff.mpr fun place member => ?_
          rcases List.mem_cons.mp member with rfl | member
          · simpa using sooner
          · have := late place member
            simp only [decide_eq_true_eq]
            omega
        rw [within behind', List.filter_append, none, List.append_nil] at balanced
        exact not_balanced_of_isPrefix nested
          (filter_isPrefix_of_pairwise (List.pairwise_append.mp ascending).1 _) balanced
    rw [found]
    refine ⟨?_, fun least' => congrArg some (least.unique least')⟩
    rintro ⟨⟩
    exact least

/-! ### Braces without a partner -/

private theorem eq_of_code_eq {c d : Char} {front front' rest rest' : List (Nat × Char)}
    (split : t.code = front ++ (p, c) :: rest) (split' : t.code = front' ++ (p, d) :: rest') :
    front = front' := by
  have before : ∀ {e : Char} {front rest : List (Nat × Char)},
      t.code = front ++ (p, e) :: rest → t.code.filter (·.1 < p) = front := by
    intro e front rest split
    obtain ⟨early, late⟩ := Text.offsets_of_code_eq split
    rw [split, List.filter_append, List.filter_cons_of_neg (by simp), List.filter_eq_self.mpr,
      List.filter_eq_nil_iff.mpr, List.append_nil]
    · intro place member
      have := late place member
      simp only [decide_eq_true_eq]
      omega
    · exact fun place member => decide_eq_true (early place member)
  rw [← before split, before split']

/-- A closing brace finds the stack empty exactly if it is the partner of no brace. -/
theorem exists_openAfter_eq_nil_iff :
    (∃ before after, t.code = before ++ (q, '}') :: after ∧ openAfter [] before = []) ↔
      (q, '}') ∈ t.code ∧ ∀ p, (p, '{') ∈ t.code → t.matchingBracket? p '{' '}' ≠ some q := by
  constructor
  · rintro ⟨before, after, split, empty⟩
    refine ⟨by rw [split]; simp, fun p brace found => ?_⟩
    obtain ⟨before', after', outer, split', top⟩ :=
      (matchingBracket?_eq_some_iff_pops brace).mp found
    rw [← eq_of_code_eq split split', empty] at top
    cases top
  · rintro ⟨member, alone⟩
    obtain ⟨before, after, split⟩ := List.append_of_mem member
    refine ⟨before, after, split, ?_⟩
    cases stack : openAfter [] before with
    | nil => rfl
    | cons p outer =>
      have pushed : (p, '{') ∈ before := by
        have onStack : p ∈ openAfter [] before := by rw [stack]; exact List.mem_cons_self
        exact (mem_of_mem_openAfter onStack).resolve_left List.not_mem_nil
      have brace : (p, '{') ∈ t.code := by
        rw [split]
        exact List.mem_append_left _ pushed
      exact absurd ((matchingBracket?_eq_some_iff_pops brace).mpr
        ⟨before, after, outer, split, stack⟩) (alone p brace)

/-- The check is quiet exactly on balanced braces. -/
theorem unmatchedBraces_eq_nil_iff :
    unmatchedBraces [] places = [] ↔ nesting '{' '}' 0 (places.map (·.2)) = some 0 := by
  refine ⟨nesting_of_unmatchedBraces, fun reached => ?_⟩
  refine List.eq_nil_iff_forall_not_mem.mpr ?_
  rintro ⟨i, problem⟩ member
  rcases mem_unmatchedBraces_iff.mp member with
    ⟨-, onStack⟩ | ⟨-, before, after, rfl, empty⟩
  · obtain ⟨left, none, stack, -⟩ := exists_openAfter_of_nesting [] [] reached
    have empty : openAfter [] places = [] := by
      rw [← List.nil_append [], stack, List.length_eq_zero_iff.mp none]
    rw [empty] at onStack
    cases onStack
  · rw [List.map_append] at reached
    obtain ⟨depth, first, closes⟩ := nesting_append_eq_some.mp reached
    obtain ⟨left, deep, stack, -⟩ := exists_openAfter_of_nesting [] [] first
    have none : left = [] := by
      rw [← List.append_nil left, ← stack, List.nil_append, empty]
    rw [← deep, none] at closes
    cases closes

private theorem mem_braceProblems_iff {d : Diagnostic} :
    d ∈ braceProblems t ↔
      (∃ p, (p, '{') ∈ t.code ∧ t.matchingBracket? p '{' '}' = none ∧
        d = Problem.openBrace.onLine (t.lineNumberAt p)) ∨
      ∃ q, (q, '}') ∈ t.code ∧
        (∀ p, (p, '{') ∈ t.code → t.matchingBracket? p '{' '}' ≠ some q) ∧
        d = (Problem.strayClosing '}').onLine (t.lineNumberAt q) := by
  constructor
  · intro member
    obtain ⟨⟨i, problem⟩, listed, rfl⟩ := List.mem_map.mp member
    rcases mem_unmatchedBraces_iff.mp listed with ⟨rfl, onStack⟩ | ⟨rfl, stray⟩
    · have brace := (mem_of_mem_openAfter onStack).resolve_left List.not_mem_nil
      exact .inl ⟨i, brace, (matchingBracket?_eq_none_iff_mem_openAfter brace).mpr onStack, rfl⟩
    · obtain ⟨brace, alone⟩ := exists_openAfter_eq_nil_iff.mp stray
      exact .inr ⟨i, brace, alone, rfl⟩
  · rintro (⟨p, brace, missed, rfl⟩ | ⟨q, brace, alone, rfl⟩)
    · refine List.mem_map.mpr ⟨(p, .openBrace), mem_unmatchedBraces_iff.mpr (.inl ⟨rfl, ?_⟩), rfl⟩
      exact (matchingBracket?_eq_none_iff_mem_openAfter brace).mp missed
    · refine List.mem_map.mpr ⟨(q, .strayClosing '}'),
        mem_unmatchedBraces_iff.mpr (.inr ⟨rfl, ?_⟩), rfl⟩
      exact exists_openAfter_eq_nil_iff.mpr ⟨brace, alone⟩

/-- **The search for a partner and the check of the braces agree.** The search gives an opening
brace the closing brace that takes it off the stack of the check, which is the end of the first
range from the brace on with balanced braces, and none exactly if the brace is on the stack at the
end. The check reports the lines of the opening braces without a partner and of the closing braces
that are nobody's partner, and nothing exactly if the braces are balanced. -/
theorem matching_agrees_with_check (t : Text) :
    (∀ p, (p, '{') ∈ t.code →
      (∀ q, t.matchingBracket? p '{' '}' = some q ↔ Pops t.code p q) ∧
      (∀ q, t.matchingBracket? p '{' '}' = some q ↔
        IsLeast {q | p < q ∧ Balanced '{' '}' (t.codeWithin p q)} q) ∧
      (t.matchingBracket? p '{' '}' = none ↔ p ∈ openAfter [] t.code)) ∧
    (∀ d, d ∈ braceProblems t ↔
      (∃ p, (p, '{') ∈ t.code ∧ t.matchingBracket? p '{' '}' = none ∧
        d = .error .imbalance (t.lineNumberAt p) "Expected corresponding '\x7d'") ∨
      ∃ q, (q, '}') ∈ t.code ∧
        (∀ p, (p, '{') ∈ t.code → t.matchingBracket? p '{' '}' ≠ some q) ∧
        d = .error .imbalance (t.lineNumberAt q) "Unexpected '\x7d'") ∧
    (braceProblems t = [] ↔ Balanced '{' '}' t.braces) := by
  refine ⟨fun p brace => ⟨fun q => matchingBracket?_eq_some_iff_pops brace,
    fun q => matchingBracket?_eq_some_iff_isLeast brace,
    matchingBracket?_eq_none_iff_mem_openAfter brace⟩, fun d => mem_braceProblems_iff, ?_⟩
  rw [braceProblems, List.map_eq_nil_iff, unmatchedBraces_eq_nil_iff, Text.map_snd_code,
    balanced_iff_nesting (by decide), Text.nesting_braces]

/-- A text in which one brace closes nothing, one is not closed, and one has a partner behind a
literal with a brace in it. -/
theorem matching_behind_literal :
    let t : Text := "\x7d\n\x7b \x7b '\x7d' \x7d"
    (4, '{') ∈ t.code ∧ Pops t.code 4 10 ∧
      IsLeast {q | 4 < q ∧ Balanced '{' '}' (t.codeWithin 4 q)} 10 ∧
      (2, '{') ∈ t.code ∧ 2 ∈ openAfter [] t.code ∧
      Diagnostic.error .imbalance 2 "Expected corresponding '\x7d'" ∈ braceProblems t ∧
      ¬Balanced '{' '}' t.braces := by
  intro t
  obtain ⟨partners, reports, quiet⟩ := matching_agrees_with_check t
  have inner : (4, '{') ∈ t.code := by decide +kernel
  have outer : (2, '{') ∈ t.code := by decide +kernel
  have found : t.matchingBracket? 4 '{' '}' = some 10 := by decide +kernel
  have missed : t.matchingBracket? 2 '{' '}' = none := by decide +kernel
  have reported : braceProblems t ≠ [] := by decide +kernel
  exact ⟨inner, ((partners 4 inner).1 10).mp found, ((partners 4 inner).2.1 10).mp found, outer,
    (partners 2 outer).2.2.mp missed, (reports _).mpr (.inl ⟨2, outer, missed, by decide +kernel⟩),
    fun balanced => reported (quiet.mpr balanced)⟩

end Verification

end ScriptLoom
