import Mathlib.Data.List.Infix
import ScriptLoom.Proofs.Scan
import ScriptLoom.Verification

/-! # Nesting of brackets

A word is balanced for a pair of brackets when no closing bracket comes before its opening one
and every opening bracket is closed (`Balanced`). The depth reached after a word (`nesting`)
decides this and composes along words, so that cutting a balanced block out of a word, or moving
closing brackets towards its end, is arithmetic on depths.

The checks of a script and the search for a closing bracket are stated through `nesting` here:
`Verification.nesting_of_unmatchedBraces`, `Verification.nesting_of_parenthesisBalance` and
`exists_splitAtClose?`.
-/

namespace ScriptLoom

/-- Whether every closing bracket of a word closes an earlier opening one, and every opening
bracket is closed. Other characters do not count. -/
structure Balanced (opening closing : Char) (word : List Char) : Prop where
  earlier : ∀ start, start <+: word → start.count closing ≤ start.count opening
  equal : word.count opening = word.count closing

instance (opening closing : Char) (word : List Char) : Decidable (Balanced opening closing word) :=
  decidable_of_iff ((∀ start ∈ word.inits, start.count closing ≤ start.count opening) ∧
      word.count opening = word.count closing)
    ⟨fun holds => ⟨fun start isStart => holds.1 start ((List.mem_inits ..).mpr isStart), holds.2⟩,
      fun balanced => ⟨fun start listed => balanced.earlier start ((List.mem_inits ..).mp listed),
        balanced.equal⟩⟩

/-- The depth after a word that starts at a depth; `none` when a bracket closes nothing. -/
def nesting (opening closing : Char) : Nat → List Char → Option Nat
  | depth, [] => some depth
  | depth, c :: word =>
    if c = opening then nesting opening closing (depth + 1) word
    else if c = closing then
      match depth with
      | 0 => none
      | depth + 1 => nesting opening closing depth word
    else nesting opening closing depth word

section Nesting

variable {opening closing : Char} {depth final : Nat} {u v w : List Char}

/-- The empty word leaves the depth as it is. -/
@[simp]
theorem nesting_nil : nesting opening closing depth [] = some depth :=
  rfl

/-- An opening bracket leads one level down. -/
theorem nesting_cons_opening :
    nesting opening closing depth (opening :: w) = nesting opening closing (depth + 1) w := by
  simp [nesting]

/-- A closing bracket leads one level up. -/
theorem nesting_cons_closing (differ : opening ≠ closing) :
    nesting opening closing (depth + 1) (closing :: w) = nesting opening closing depth w := by
  simp [nesting, differ.symm]

/-- Other characters leave the depth as it is. -/
theorem nesting_cons_other {c : Char} (notOpening : c ≠ opening) (notClosing : c ≠ closing) :
    nesting opening closing depth (c :: w) = nesting opening closing depth w := by
  simp [nesting, notOpening, notClosing]

/-- Depths compose along words. -/
theorem nesting_append :
    nesting opening closing depth (u ++ v) =
      (nesting opening closing depth u).bind (nesting opening closing · v) := by
  induction u generalizing depth with
  | nil => rfl
  | cons c u ih =>
    simp only [List.cons_append, nesting]
    split
    · exact ih
    · split
      · cases depth with
        | zero => rfl
        | succ depth => exact ih
      · exact ih

/-- The depths along two words one after the other. -/
theorem nesting_append_eq_some :
    nesting opening closing depth (u ++ v) = some final ↔
      ∃ middle, nesting opening closing depth u = some middle ∧
        nesting opening closing middle v = some final := by
  rw [nesting_append, Option.bind_eq_some_iff]

/-- Starting deeper ends deeper. -/
theorem nesting_add (reached : nesting opening closing depth w = some final) (extra : Nat) :
    nesting opening closing (depth + extra) w = some (final + extra) := by
  induction w generalizing depth with
  | nil =>
    cases reached
    rfl
  | cons c w ih =>
    simp only [nesting] at reached ⊢
    split at reached
    · next same =>
      simp only [same, ↓reduceIte]
      rw [Nat.add_right_comm]
      exact ih reached
    · next notOpening =>
      simp only [notOpening, ↓reduceIte]
      split at reached
      · next same =>
        simp only [same, ↓reduceIte]
        cases depth with
        | zero => cases reached
        | succ depth =>
          rw [Nat.add_right_comm]
          exact ih reached
      · next notClosing =>
        simp only [notClosing, ↓reduceIte]
        exact ih reached

/-- Only brackets count. -/
theorem nesting_filter {keep : Char → Bool} (keepsOpening : keep opening = true)
    (keepsClosing : keep closing = true) :
    nesting opening closing depth (w.filter keep) = nesting opening closing depth w := by
  induction w generalizing depth with
  | nil => rfl
  | cons c w ih =>
    by_cases kept : keep c = true
    · rw [List.filter_cons_of_pos kept]
      simp only [nesting, ih]
    · rw [List.filter_cons_of_neg kept, ih, nesting_cons_other]
      · rintro rfl
        exact kept keepsOpening
      · rintro rfl
        exact kept keepsClosing

/-- A word that closes `drop` brackets more than it opens, put between two others, takes that many
more to begin with. -/
theorem nesting_insert {drop : Nat} (inner : nesting opening closing drop w = some 0)
    (outer : nesting opening closing depth (u ++ v) = some final) :
    nesting opening closing (depth + drop) (u ++ (w ++ v)) = some final := by
  obtain ⟨middle, first, last⟩ := nesting_append_eq_some.mp outer
  refine nesting_append_eq_some.mpr ⟨middle + drop, nesting_add first drop, ?_⟩
  refine nesting_append_eq_some.mpr ⟨middle, ?_, last⟩
  have shifted := nesting_add inner middle
  rwa [Nat.add_comm, Nat.zero_add] at shifted

/-- A word without opening brackets closes as many as it has closing ones. -/
theorem nesting_count (differ : opening ≠ closing) (none : opening ∉ w) :
    nesting opening closing (w.count closing) w = some 0 := by
  induction w with
  | nil => rfl
  | cons c w ih =>
    have other := List.ne_of_not_mem_cons none
    have rest := ih (List.not_mem_of_not_mem_cons none)
    by_cases closes : c = closing
    · subst closes
      rw [List.count_cons_self, nesting_cons_closing differ]
      exact rest
    · rw [List.count_cons_of_ne closes, nesting_cons_other (Ne.symm other) closes]
      exact rest

/-- Whether a character is one of two brackets. -/
def isBracket (opening closing c : Char) : Bool :=
  c = opening || c = closing

/-- Only brackets count for the depth. -/
@[simp]
theorem nesting_filter_isBracket :
    nesting opening closing depth (w.filter (isBracket opening closing)) =
      nesting opening closing depth w :=
  nesting_filter (by simp [isBracket]) (by simp [isBracket])

private theorem isBracket_of_isBlank (visible : Text.isBlank opening = false)
    (visible' : Text.isBlank closing = false) (c : Char) (blank : Text.isBlank c = true) :
    isBracket opening closing c = false := by
  have notOpening : c ≠ opening := by
    rintro rfl
    exact absurd blank (by simp [visible])
  have notClosing : c ≠ closing := by
    rintro rfl
    exact absurd blank (by simp [visible'])
  simp [isBracket, notOpening, notClosing]

/-- Blanks are no braces. -/
theorem isBrace_of_isBlank : ∀ c, Text.isBlank c = true → isBracket '{' '}' c = false :=
  isBracket_of_isBlank (by decide) (by decide)

/-- Blanks are no parentheses. -/
theorem isParenthesis_of_isBlank : ∀ c, Text.isBlank c = true → isBracket '(' ')' c = false :=
  isBracket_of_isBlank (by decide) (by decide)

/-- The depth is the number of opening brackets less that of closing ones. -/
theorem add_count_of_nesting (differ : opening ≠ closing)
    (reached : nesting opening closing depth w = some final) :
    depth + w.count opening = final + w.count closing := by
  induction w generalizing depth with
  | nil =>
    cases reached
    rfl
  | cons c w ih =>
    by_cases isOpening : c = opening
    · subst isOpening
      rw [nesting_cons_opening] at reached
      have := ih reached
      simp only [List.count_cons_self, List.count_cons_of_ne differ]
      omega
    · by_cases isClosing : c = closing
      · subst isClosing
        cases depth with
        | zero => simp [nesting, isOpening] at reached
        | succ depth =>
          rw [nesting_cons_closing differ] at reached
          have := ih reached
          simp only [List.count_cons_self, List.count_cons_of_ne isOpening]
          omega
      · rw [nesting_cons_other isOpening isClosing] at reached
        have := ih reached
        simp only [List.count_cons_of_ne isOpening, List.count_cons_of_ne isClosing]
        omega

/-- A word lowers every depth by as much as the least one it can start from. -/
theorem eq_add_of_nesting (differ : opening ≠ closing) {drop : Nat}
    (least : nesting opening closing drop w = some 0)
    (reached : nesting opening closing depth w = some final) : depth = final + drop := by
  have alone := add_count_of_nesting differ least
  have within := add_count_of_nesting differ reached
  omega

/-- A word taken out from between two others leaves as many brackets open as it closed. -/
theorem nesting_remove (differ : opening ≠ closing) {drop : Nat}
    (inner : nesting opening closing drop w = some 0)
    (outer : nesting opening closing depth (u ++ (w ++ v)) = some final) :
    nesting opening closing depth (u ++ v) = some (final + drop) := by
  obtain ⟨middle, first, rest⟩ := nesting_append_eq_some.mp outer
  obtain ⟨middle', taken, last⟩ := nesting_append_eq_some.mp rest
  refine nesting_append_eq_some.mpr ⟨middle, first, ?_⟩
  rw [eq_add_of_nesting differ inner taken]
  exact nesting_add last drop

/-- A depth is reached unless some beginning of the word closes too much. -/
theorem exists_nesting (differ : opening ≠ closing)
    (enough : ∀ start, start <+: w → start.count closing ≤ depth + start.count opening) :
    ∃ final, nesting opening closing depth w = some final := by
  induction w generalizing depth with
  | nil => exact ⟨depth, rfl⟩
  | cons c w ih =>
    have step : ∀ start, start <+: w →
        (c :: start).count closing ≤ depth + (c :: start).count opening := by
      intro start begins
      exact enough (c :: start) (List.cons_prefix_cons.mpr ⟨rfl, begins⟩)
    by_cases isOpening : c = opening
    · subst isOpening
      rw [nesting_cons_opening]
      refine ih fun start begins => ?_
      have := step start begins
      simp only [List.count_cons_self, List.count_cons_of_ne differ] at this
      omega
    · by_cases isClosing : c = closing
      · subst isClosing
        have first := step [] (List.nil_prefix)
        simp only [List.count_cons_self, List.count_cons_of_ne isOpening, List.count_nil] at first
        obtain ⟨less, rfl⟩ : ∃ less, depth = less + 1 := ⟨depth - 1, by omega⟩
        rw [nesting_cons_closing differ]
        refine ih fun start begins => ?_
        have := step start begins
        simp only [List.count_cons_self, List.count_cons_of_ne isOpening] at this
        omega
      · rw [nesting_cons_other isOpening isClosing]
        refine ih fun start begins => ?_
        have := step start begins
        simpa only [List.count_cons_of_ne isOpening, List.count_cons_of_ne isClosing] using this

/-- A word is balanced when it leads from depth zero back to it. -/
theorem balanced_iff_nesting (differ : opening ≠ closing) :
    Balanced opening closing w ↔ nesting opening closing 0 w = some 0 := by
  constructor
  · intro balanced
    have enough : ∀ start, start <+: w → start.count closing ≤ 0 + start.count opening := by
      simpa using balanced.earlier
    obtain ⟨final, reached⟩ := exists_nesting differ enough
    have counted := add_count_of_nesting differ reached
    rw [balanced.equal] at counted
    obtain rfl : final = 0 := by omega
    exact reached
  · intro reached
    refine ⟨?_, ?_⟩
    · rintro start ⟨rest, rfl⟩
      obtain ⟨middle, first, -⟩ := nesting_append_eq_some.mp reached
      have := add_count_of_nesting differ first
      omega
    · have := add_count_of_nesting differ reached
      omega

end Nesting

/-! ### The code characters among pieces -/

/-- The character of a piece of code. -/
def Piece.code? : Piece → Option Char
  | .code c => some c
  | .region _ _ _ => none

/-- The code characters among pieces. -/
def codeOf (ps : List Piece) : Text :=
  ps.filterMap Piece.code?

/-- No pieces have no code. -/
@[simp]
theorem codeOf_nil : codeOf [] = [] :=
  rfl

/-- A code character comes first in the code. -/
@[simp]
theorem codeOf_cons_code (c : Char) (ps : List Piece) : codeOf (.code c :: ps) = c :: codeOf ps :=
  rfl

/-- A region has no code. -/
@[simp]
theorem codeOf_cons_region (kind : Region) (body : Text) (closed : Bool) (ps : List Piece) :
    codeOf (.region kind body closed :: ps) = codeOf ps :=
  rfl

/-- The code of two lists of pieces comes one after the other. -/
@[simp]
theorem codeOf_append (ps qs : List Piece) : codeOf (ps ++ qs) = codeOf ps ++ codeOf qs :=
  List.filterMap_append

/-- The code consists of the code characters among the pieces. -/
theorem mem_codeOf {c : Char} {ps : List Piece} : c ∈ codeOf ps ↔ .code c ∈ ps := by
  constructor
  · intro member
    obtain ⟨p, listed, read⟩ := List.mem_filterMap.mp member
    cases p with
    | code d =>
      cases read
      exact listed
    | region => cases read
  · intro member
    exact List.mem_filterMap.mpr ⟨_, member, rfl⟩

/-- Code characters are their own code. -/
@[simp]
theorem codeOf_map_code (t : Text) : codeOf (t.map .code) = t := by
  induction t with
  | nil => rfl
  | cons c t ih => rw [List.map_cons, codeOf_cons_code, ih]

/-- The code characters among pieces, offsets left out. -/
theorem map_snd_codeFrom (start : Nat) (ps : List Piece) :
    (codeFrom start ps).map (·.2) = codeOf ps := by
  induction ps generalizing start with
  | nil => rfl
  | cons p ps ih =>
    cases p with
    | code c =>
      rw [codeFrom, List.map_cons, ih]
      rfl
    | region kind body closed => exact ih _

/-- The code of a text is that of its pieces. -/
theorem Text.map_snd_code (t : Text) : t.code.map (·.2) = codeOf t.pieces :=
  map_snd_codeFrom 0 t.pieces

/-! ### The code characters and all line feeds -/

/-- The code characters among pieces, and the line feeds of comments. -/
def lineCode (ps : List Piece) : Text :=
  codeOf (ps.flatMap Piece.stripped)

/-- No pieces have no code and no line feeds. -/
@[simp]
theorem lineCode_nil : lineCode [] = [] :=
  rfl

/-- The code and line feeds of two lists of pieces come one after the other. -/
@[simp]
theorem lineCode_append (ps qs : List Piece) :
    lineCode (ps ++ qs) = lineCode ps ++ lineCode qs := by
  rw [lineCode, List.flatMap_append, codeOf_append]
  rfl

/-- A code character is kept. -/
@[simp]
theorem lineCode_cons_code (c : Char) (ps : List Piece) :
    lineCode (.code c :: ps) = c :: lineCode ps :=
  rfl

/-- Nothing of a literal is kept. -/
theorem lineCode_cons_literal {kind : Region} (literal : kind ≠ .comment) (body : Text)
    (closed : Bool) (ps : List Piece) :
    lineCode (.region kind body closed :: ps) = lineCode ps := by
  cases kind with
  | comment => exact absurd rfl literal
  | string => rfl
  | character => rfl

/-- The line feeds of a comment are kept. -/
theorem lineCode_cons_comment (body : Text) (closed : Bool) (ps : List Piece) :
    lineCode (.region .comment body closed :: ps) = body.filter (· = '\n') ++ lineCode ps := by
  rw [lineCode, List.flatMap_cons, codeOf_append]
  exact congrArg (· ++ _) (codeOf_map_code _)

/-- Code characters are all kept. -/
@[simp]
theorem lineCode_map_code (t : Text) : lineCode (t.map .code) = t := by
  induction t with
  | nil => rfl
  | cons c t ih => rw [List.map_cons, lineCode_cons_code, ih]

/-- What is kept of pieces that are put together is put together. -/
theorem lineCode_flatMap {α : Type} (read : α → List Piece) (items : List α) :
    lineCode (items.flatMap read) = items.flatMap fun item => lineCode (read item) := by
  induction items with
  | nil => rfl
  | cons item items ih => rw [List.flatMap_cons, lineCode_append, ih, List.flatMap_cons]

/-- A part keeps no more than the whole. -/
theorem lineCode_subset {ps qs : List Piece} (part : ps <:+: qs) : lineCode ps ⊆ lineCode qs := by
  obtain ⟨before, after, rfl⟩ := part
  intro c member
  rw [lineCode_append, lineCode_append]
  exact List.mem_append_left _ (List.mem_append_right _ member)

/-- A class of characters without the line feed does not see the line feeds of comments. -/
theorem filter_lineCode {keep : Char → Bool} (blind : keep '\n' = false) (ps : List Piece) :
    (lineCode ps).filter keep = (codeOf ps).filter keep := by
  induction ps with
  | nil => rfl
  | cons p ps ih =>
    rcases p with c | ⟨kind, body, closed⟩
    · simp only [lineCode_cons_code, codeOf_cons_code, List.filter_cons, ih]
    · rw [codeOf_cons_region]
      by_cases comment : kind = .comment
      · subst comment
        have none : (body.filter (· = '\n')).filter keep = [] := by
          simp only [List.filter_eq_nil_iff, List.mem_filter, decide_eq_true_eq]
          rintro c ⟨-, rfl⟩
          simp [blind]
        rw [lineCode_cons_comment, List.filter_append, none, ih, List.nil_append]
      · rw [lineCode_cons_literal comment, ih]

/-- Without line feeds, the comments contribute nothing. -/
theorem lineCode_eq_codeOf {ps : List Piece} (inLine : '\n' ∉ lineCode ps) :
    lineCode ps = codeOf ps := by
  induction ps with
  | nil => rfl
  | cons p ps ih =>
    rcases p with c | ⟨kind, body, closed⟩
    · rw [lineCode_cons_code] at inLine ⊢
      rw [ih (List.not_mem_of_not_mem_cons inLine), codeOf_cons_code]
    · by_cases comment : kind = .comment
      · subst comment
        rw [lineCode_cons_comment, List.mem_append, not_or] at inLine
        have none : body.filter (· = '\n') = [] := by
          refine List.eq_nil_iff_forall_not_mem.mpr fun c member => inLine.1 ?_
          obtain rfl : c = '\n' := by simpa using List.of_mem_filter member
          exact member
        rw [lineCode_cons_comment, none, List.nil_append, ih inLine.2, codeOf_cons_region]
      · rw [lineCode_cons_literal comment] at inLine ⊢
        rw [ih inLine, codeOf_cons_region]

/-! ### The checks of a script -/

namespace Verification

/-- Braces without a complaint are balanced. -/
theorem nesting_of_unmatchedBraces {opened : List Nat} {places : List (Nat × Char)}
    (quiet : unmatchedBraces opened places = []) :
    nesting '{' '}' opened.length (places.map (·.2)) = some 0 := by
  induction places generalizing opened with
  | nil =>
    obtain rfl : opened = [] := by simpa [unmatchedBraces] using quiet
    rfl
  | cons place places ih =>
    obtain ⟨i, c⟩ := place
    simp only [unmatchedBraces] at quiet
    simp only [List.map_cons, nesting]
    split at quiet
    · next same =>
      simp only [same, ↓reduceIte]
      exact ih quiet
    · next notOpening =>
      simp only [notOpening, ↓reduceIte]
      split at quiet
      · next same =>
        simp only [same, ↓reduceIte]
        cases opened with
        | nil => cases quiet
        | cons _ outer => exact ih quiet
      · next notClosing =>
        simp only [notClosing, ↓reduceIte]
        exact ih quiet

/-- Parentheses without a complaint are balanced. -/
theorem nesting_of_parenthesisBalance {opened : Nat} {places : List (Nat × Char)}
    (quiet : parenthesisBalance opened places = (0, false)) :
    nesting '(' ')' opened (places.map (·.2)) = some 0 := by
  induction places generalizing opened with
  | nil =>
    obtain rfl : opened = 0 := by simpa [parenthesisBalance] using quiet
    rfl
  | cons place places ih =>
    obtain ⟨i, c⟩ := place
    simp only [parenthesisBalance] at quiet
    simp only [List.map_cons, nesting]
    split at quiet
    · next same =>
      simp only [same, ↓reduceIte]
      exact ih quiet
    · next notOpening =>
      simp only [notOpening, ↓reduceIte]
      split at quiet
      · next same =>
        simp only [same, ↓reduceIte]
        cases opened with
        | zero => simp at quiet
        | succ opened => exact ih quiet
      · next notClosing =>
        simp only [notClosing, ↓reduceIte]
        exact ih quiet

end Verification

/-! ### The search for brackets among pieces -/

section Search

variable {opening closing : Char} {depth : Nat} {ps inside after : List Piece}

/-- A split at a closing bracket: what stands inside closes all that it opens. -/
theorem eq_of_splitAtClose?
    (split : splitAtClose? opening closing depth ps = some (inside, after)) :
    ps = inside ++ .code closing :: after ∧
      nesting opening closing depth (codeOf inside) = some 0 := by
  fun_induction splitAtClose? opening closing depth ps generalizing inside after with
  | case1 => cases split
  | case2 depth ps ih =>
    obtain ⟨rest, found, equal⟩ := Option.map_eq_some_iff.mp split
    cases equal
    obtain ⟨whole, reached⟩ := ih found
    exact ⟨congrArg (_ :: ·) whole, by rw [codeOf_cons_code, nesting_cons_opening, reached]⟩
  | case3 ps _ =>
    cases split
    exact ⟨rfl, rfl⟩
  | case4 ps depth differ ih =>
    obtain ⟨rest, found, equal⟩ := Option.map_eq_some_iff.mp split
    cases equal
    obtain ⟨whole, reached⟩ := ih found
    exact ⟨congrArg (_ :: ·) whole,
      by rw [codeOf_cons_code, nesting_cons_closing (Ne.symm differ), reached]⟩
  | case5 depth c ps notOpening notClosing ih =>
    obtain ⟨rest, found, equal⟩ := Option.map_eq_some_iff.mp split
    cases equal
    obtain ⟨whole, reached⟩ := ih found
    exact ⟨congrArg (_ :: ·) whole,
      by rw [codeOf_cons_code, nesting_cons_other notOpening notClosing, reached]⟩
  | case6 depth p ps notCode ih =>
    obtain ⟨rest, found, equal⟩ := Option.map_eq_some_iff.mp split
    cases equal
    obtain ⟨whole, reached⟩ := ih found
    refine ⟨congrArg (_ :: ·) whole, ?_⟩
    cases p with
    | code c => exact absurd rfl (notCode c)
    | region kind body closed => exact reached

/-- A search that finds no closing bracket ends inside the bracket that it started in. -/
theorem nesting_of_splitAtClose?_eq_none (differ : opening ≠ closing)
    (failed : splitAtClose? opening closing depth ps = none) :
    ∃ final, nesting opening closing depth (codeOf ps) = some final := by
  fun_induction splitAtClose? opening closing depth ps with
  | case1 depth => exact ⟨depth, rfl⟩
  | case2 depth ps ih =>
    rw [codeOf_cons_code, nesting_cons_opening]
    exact ih (Option.map_eq_none_iff.mp failed)
  | case3 => cases failed
  | case4 ps depth _ ih =>
    rw [codeOf_cons_code, nesting_cons_closing differ]
    exact ih (Option.map_eq_none_iff.mp failed)
  | case5 depth c ps notOpening notClosing ih =>
    rw [codeOf_cons_code, nesting_cons_other notOpening notClosing]
    exact ih (Option.map_eq_none_iff.mp failed)
  | case6 depth p ps notCode ih =>
    cases p with
    | code c => exact absurd rfl (notCode c)
    | region kind body closed => exact ih (Option.map_eq_none_iff.mp failed)

/-- A bracket is closed in a word that ends at depth zero. -/
theorem exists_splitAtClose? (differ : opening ≠ closing) {outer : Nat}
    (reached : nesting opening closing (outer + 1) (codeOf ps) = some 0) :
    ∃ inside after, splitAtClose? opening closing 0 ps = some (inside, after) := by
  cases split : splitAtClose? opening closing 0 ps with
  | some parts => exact ⟨parts.1, parts.2, rfl⟩
  | none =>
    obtain ⟨final, stuck⟩ := nesting_of_splitAtClose?_eq_none differ split
    have deeper := nesting_add stuck (outer + 1)
    rw [Nat.zero_add, reached] at deeper
    have := Option.some.inj deeper
    omega

/-- A split at a code character. -/
theorem eq_of_splitAtCode? {c : Char} (split : splitAtCode? c ps = some (inside, after)) :
    ps = inside ++ .code c :: after ∧ .code c ∉ inside := by
  fun_induction splitAtCode? c ps generalizing inside after with
  | case1 => cases split
  | case2 ps =>
    cases split
    exact ⟨rfl, List.not_mem_nil⟩
  | case3 p ps differ ih =>
    obtain ⟨rest, found, equal⟩ := Option.map_eq_some_iff.mp split
    cases equal
    obtain ⟨whole, absent⟩ := ih found
    refine ⟨congrArg (_ :: ·) whole, ?_⟩
    rw [List.mem_cons, not_or]
    exact ⟨Ne.symm differ, absent⟩

/-- A code character that is not found is not there. -/
theorem splitAtCode?_eq_none_iff {c : Char} : splitAtCode? c ps = none ↔ .code c ∉ ps := by
  fun_induction splitAtCode? c ps with
  | case1 => simp
  | case2 => simp
  | case3 p ps differ ih => simp [ih, Ne.symm differ]

end Search

end ScriptLoom
