import ScriptLoom.Proofs.KeywordSearch
import ScriptLoom.Proofs.ProgramUnits

/-! # The ranges of structs

Structs are taken out of a text one after the other, and each time the text is read again. Since a
struct stands behind nothing but blanks on its line, the reading of what is left does not change,
and the search for the next one goes on where the last one stood (`Record.Passed`). So the structs
are ranges of the first text, one behind the other (`Record.StandsAt`, `Record.Clears`), and what is
said of a slot holds of the two slots with user code (`Record.takeRecords_clears`).
-/

namespace ScriptLoom

namespace Record

open Text

/-! ### Where the search goes on -/

/-- Whether the first keyword among some pieces and a struct behind them is that of the struct. -/
def FoundBehind (atStart : Bool) (start after : List Piece) : Prop :=
  findKeyword? atStart (start ++ (Keyword.record.map .code ++ after)) = some (spell start, after)

section Found

variable {atStart : Bool} {start after : List Piece} {c : Char}

private theorem FoundBehind.atStart_of_nil
    (found : FoundBehind atStart [] after) : atStart = true := by
  cases atStart with
  | true => rfl
  | false =>
    obtain ⟨rest, -, equal⟩ := Option.map_eq_some_iff.mp found
    cases (Prod.mk.inj equal).1

private theorem foundBehind_cons_code :
    FoundBehind atStart (.code c :: start) after ↔
      if (atStart && !isBlank c) = true then
        dropWord? Keyword.record (.code c :: (start ++ (Keyword.record.map .code ++ after))) =
            none ∧
          FoundBehind false start after
      else FoundBehind (atStart || c = '\n') start after := by
  have push : ∀ found : Option (Text × List Piece),
      (found.map fun parts => (c :: parts.1, parts.2)) = some (c :: spell start, after) ↔
        found = some (spell start, after) := by
    intro found
    rcases found with _ | ⟨before, rest⟩ <;> simp
  unfold FoundBehind
  rw [List.cons_append, findKeyword?, spell_cons]
  change _ = some (c :: spell start, after) ↔ _
  split
  · cases dropWord? Keyword.record (.code c :: (start ++ (Keyword.record.map .code ++ after))) with
    | some rest => simp
    | none => simp [push]
  · exact push _

private theorem foundBehind_cons_region {kind : Region} {body : Text} {closed : Bool} :
    FoundBehind atStart (.region kind body closed :: start) after ↔
      FoundBehind false start after := by
  unfold FoundBehind
  rw [List.cons_append, findKeyword?, spell_cons]
  generalize findKeyword? false (start ++ (Keyword.record.map .code ++ after)) = found
  rcases found with _ | ⟨before, rest⟩ <;> simp [Piece.text]

/-- Behind something visible a keyword is found on a later line only. -/
theorem FoundBehind.lineFeed_mem (found : FoundBehind false start after) :
    .code '\n' ∈ start := by
  induction start with
  | nil => cases found.atStart_of_nil
  | cons p start ih =>
    cases p with
    | region => exact List.mem_cons_of_mem _ (ih (foundBehind_cons_region.mp found))
    | code c =>
      have later := foundBehind_cons_code.mp found
      rw [Bool.false_and, if_neg (by decide), Bool.false_or] at later
      by_cases feed : c = '\n'
      · rw [feed]
        exact List.mem_cons_self
      · rw [decide_eq_false feed] at later
        exact List.mem_cons_of_mem _ (ih later)

private theorem isNone_dropWord?_append {word : Text} (inLine : '\n' ∉ word)
    (feed : .code '\n' ∈ start) (rest rest' : List Piece) :
    (dropWord? word (start ++ rest)).isNone = (dropWord? word (start ++ rest')).isNone := by
  induction start generalizing word with
  | nil => cases feed
  | cons p start ih =>
    cases word with
    | nil => rfl
    | cons c word =>
      rw [List.mem_cons, not_or] at inLine
      rw [List.cons_append, List.cons_append, dropWord?, dropWord?]
      by_cases same : p = .code c
      · rw [if_pos same, if_pos same]
        refine ih inLine.2 ((List.mem_cons.mp feed).resolve_left ?_)
        rintro rfl
        exact inLine.1 (Piece.code.inj same)
      · rw [if_neg same, if_neg same]

/-- The search passes over what stands before a keyword, whatever comes behind it. -/
theorem FoundBehind.findKeyword?_append (found : FoundBehind atStart start after)
    (others : List Piece) :
    findKeyword? atStart (start ++ others) =
      (findKeyword? true others).map fun parts => (spell start ++ parts.1, parts.2) := by
  have push : ∀ (p : Piece) (ps : List Piece) (parts : Option (Text × List Piece)),
      ((parts.map fun parts => (spell ps ++ parts.1, parts.2)).map fun parts =>
        (p.text ++ parts.1, parts.2)) =
        parts.map fun parts => (spell (p :: ps) ++ parts.1, parts.2) := by
    intro p ps parts
    rcases parts with _ | ⟨before, rest⟩ <;> simp
  induction start generalizing atStart with
  | nil =>
    rw [found.atStart_of_nil]
    simp
  | cons p start ih =>
    cases p with
    | region kind body closed =>
      rw [List.cons_append, findKeyword?, ih (foundBehind_cons_region.mp found)]
      exact push (.region kind body closed) start _
    | code c =>
      have later := foundBehind_cons_code.mp found
      rw [List.cons_append, findKeyword?]
      split at later
      · next visible =>
        have none : dropWord? Keyword.record (.code c :: (start ++ others)) = none := by
          rw [← Option.isNone_iff_eq_none, ← List.cons_append,
            isNone_dropWord?_append (by decide) (List.mem_cons_of_mem _ later.2.lineFeed_mem) others
              (Keyword.record.map .code ++ after),
            List.cons_append, later.1]
          rfl
        rw [if_pos visible, none, ih later.2]
        exact push (.code c) start _
      · next passed =>
        rw [if_neg passed, ih later]
        exact push (.code c) start _

/-- Only blanks stand between a keyword and the last line feed before it. -/
theorem FoundBehind.isBlank_of_suffix (found : FoundBehind atStart start after) {v : Text}
    (ending : v <:+ spell start) (inLine : '\n' ∉ v) : ∀ c ∈ v, isBlank c = true := by
  induction start generalizing atStart v with
  | nil =>
    rw [List.suffix_nil.mp ending]
    exact List.forall_mem_nil _
  | cons p start ih =>
    have inStart : ∀ {first}, FoundBehind first start after → '\n' ∉ spell start →
        first = true ∧ ∀ c ∈ spell start, isBlank c = true := by
      intro first found' absent
      refine ⟨Bool.eq_true_of_not_eq_false fun passed => absent ?_,
        ih found' List.suffix_rfl absent⟩
      subst passed
      exact List.mem_flatMap.mpr ⟨_, found'.lineFeed_mem, List.mem_singleton_self _⟩
    obtain ⟨u, whole⟩ := ending
    rw [spell_cons] at whole
    rcases List.append_eq_append_iff.mp whole with ⟨w, body, rest⟩ | ⟨w, -, rest⟩
    · -- The ending reaches into the first piece, which then is a blank at the start of a line.
      have absent : '\n' ∉ spell start := fun member => inLine (by rw [rest]; simp [member])
      cases p with
      | region =>
        exact absurd (inStart (foundBehind_cons_region.mp found) absent).1 (by decide)
      | code c =>
        have later := foundBehind_cons_code.mp found
        split at later
        · exact absurd (inStart later.2 absent).1 (by decide)
        · next passed =>
          obtain ⟨first, blank⟩ := inStart later absent
          intro d member
          rw [rest, List.mem_append] at member
          rcases member with inPiece | behind
          · have same : d = c := by
              have inBody : d ∈ [c] := by rw [← Piece.text, body]; simp [inPiece]
              exact List.mem_singleton.mp inBody
            subst same
            have other : d ≠ '\n' := by
              rintro rfl
              exact inLine (by rw [rest]; simp [inPiece])
            rw [decide_eq_false other, Bool.or_false] at first
            simpa [first] using passed
          · exact blank d behind
    · have later : ∃ first, FoundBehind first start after := by
        cases p with
        | region => exact ⟨_, foundBehind_cons_region.mp found⟩
        | code c =>
          have later := foundBehind_cons_code.mp found
          split at later
          · exact ⟨_, later.2⟩
          · exact ⟨_, later⟩
      obtain ⟨first, found'⟩ := later
      exact ih found' ⟨w, rest.symm⟩ inLine

end Found

/-- Pieces that the search for a keyword passes over to go on as at the start of a line. -/
structure Passed (kept : List Piece) : Prop where
  passes : ∀ others, findKeyword? true (kept ++ others) =
    (findKeyword? true others).map fun parts => (spell kept ++ parts.1, parts.2)
  blank : ∀ p ∈ kept.getLast?, p.isBlankCode = true

private theorem Passed.nil : Passed [] where
  passes := by simp
  blank := by simp

private theorem Passed.append {kept start after : List Piece} (passed : Passed kept)
    (found : FoundBehind true start after) (last : ∀ p ∈ start.getLast?, p.isBlankCode = true) :
    Passed (kept ++ start) where
  passes := by
    intro others
    rw [List.append_assoc, passed.passes, found.findKeyword?_append, Option.map_map]
    congr 1
    funext parts
    simp
  blank := by
    cases start with
    | nil =>
      rw [List.append_nil]
      exact passed.blank
    | cons p start =>
      rwa [List.getLast?_append_of_ne_nil _ (List.cons_ne_nil _ _)]

/-! ### Structs among pieces -/

/-- Pieces, the structs that are taken out of them one behind the other, and what is left. -/
inductive TakenOut : List Piece → List Record → List Piece → Prop
  | done {ps : List Piece} : TakenOut ps [] ps
  | next {start struct after afterKeyword left : List Piece} {record : Record}
      {records : List Record} (found : FoundBehind true start afterKeyword)
      (written : Written record struct) (rest : TakenOut after records left) :
      TakenOut (start ++ (struct ++ after)) (record :: records) (start ++ left)

variable {className source text left : Text} {records taken : List Record}

/-- The structs that are still to be taken out are among the pieces behind those passed over. -/
theorem exists_takenOut_of_extractAll {kept rest : List Piece}
    (split : text.pieces = kept ++ rest) (passed : Passed kept)
    (extracted : extractAll className source records text = .ok (taken, left)) :
    ∃ new leftover, taken = records ++ new ∧ left = spell (kept ++ leftover) ∧
      TakenOut rest new leftover := by
  fun_induction extractAll className source records text generalizing kept rest with
  | case1 => cases extracted
  | case2 records text _ =>
    cases extracted
    refine ⟨[], rest, (List.append_nil _).symm, ?_, .done⟩
    rw [← split, spell_pieces]
  | case3 => cases extracted
  | case4 => cases extracted
  | case5 records text found first _ _ _ =>
    rename_i ih
    obtain ⟨afterKeyword, struct, after, keyword, same, written, behind⟩ :=
      exists_written_of_extractFirst first
    rw [split, passed.passes] at keyword
    obtain ⟨⟨before, afterKeyword'⟩, inner, equal⟩ := Option.map_eq_some_iff.mp keyword
    obtain ⟨front, rfl⟩ := Prod.mk.inj equal
    obtain ⟨start, rfl, whole, -, last⟩ := exists_of_findKeyword? inner
    have found' : FoundBehind true start afterKeyword' := by
      rw [FoundBehind, ← whole]
      exact inner
    rw [same] at whole
    subst whole
    have passed' := passed.append found' last
    have scanned := scanned_pieces text
    rw [split] at scanned
    have read : (found.before ++ found.after).pieces = (kept ++ start) ++ after := by
      rw [← front, behind]
      change Text.pieces ((spell kept ++ spell start) ++ spell after) = _
      rw [← spell_append]
      refine pieces_spell_append (scanned.part ?_) (scanned.part ?_) passed'.blank
      · exact ⟨[], struct ++ after, by simp⟩
      · exact ⟨kept ++ (start ++ struct), [], by simp⟩
    obtain ⟨new, leftover, rfl, leftText, out⟩ := ih read passed' extracted
    refine ⟨found.record :: new, start ++ leftover, by simp, ?_, .next found' written out⟩
    rw [leftText, List.append_assoc]

/-- Nothing is left to take out. -/
theorem extractFirst_of_extractAll
    (extracted : extractAll className source records text = .ok (taken, left)) :
    extractFirst left source = .ok none := by
  fun_induction extractAll className source records text with
  | case1 => cases extracted
  | case2 records text none =>
    cases extracted
    exact none
  | case3 => cases extracted
  | case4 => cases extracted
  | case5 _ _ _ _ _ _ _ ih => exact ih extracted

private theorem findKeyword?_of_extractFirst (none : extractFirst text source = .ok none) :
    findKeyword? true text.pieces = Option.none := by
  unfold extractFirst at none
  split at none
  · assumption
  · dsimp only at none
    split at none
    · cases none
    · split at none
      · split at none
        · cases none
        · cases none
      · cases none

end Record

/-! ### Texts without some ranges -/

namespace Text

/-- A text from a place on without the characters that start in one of some byte ranges. -/
def withoutFrom (start : Nat) (ranges : List (Nat × Nat)) (t : Text) : Text :=
  ((indexedFrom start t).filter fun (i, _) =>
    !ranges.any fun range => range.1 ≤ i && i < range.2).map (·.2)

/-- A text without the characters that start in one of some byte ranges. -/
def without (t : Text) (ranges : List (Nat × Nat)) : Text :=
  withoutFrom 0 ranges t

section Without

variable {start : Nat} {ranges : List (Nat × Nat)} {range : Nat × Nat}

private theorem bounds_of_mem_indexedFrom {i : Nat} {c : Char} {t : Text}
    (member : (i, c) ∈ indexedFrom start t) : start ≤ i ∧ i < start + size t := by
  obtain ⟨u, v, rfl, rfl⟩ := exists_of_mem_indexedFrom member
  have positive := c.utf8Size_pos
  rw [size_append, size_cons]
  omega

private theorem map_snd_indexedFrom (start : Nat) (t : Text) : (indexedFrom start t).map
    (·.2) = t := by
  induction t generalizing start with
  | nil => rfl
  | cons c t ih => rw [indexedFrom, List.map_cons, ih]

private theorem withoutFrom_append (start : Nat) (ranges : List (Nat × Nat)) (s t : Text) :
    withoutFrom start ranges (s ++ t) =
      withoutFrom start ranges s ++ withoutFrom (start + size s) ranges t := by
  rw [withoutFrom, indexedFrom_append, List.filter_append, List.map_append]
  rfl

private theorem withoutFrom_of_outside {t : Text}
    (outside : ∀ range ∈ ranges, start + size t ≤ range.1 ∨ range.2 ≤ start) :
    withoutFrom start ranges t = t := by
  rw [withoutFrom, List.filter_eq_self.mpr, map_snd_indexedFrom]
  rintro ⟨i, c⟩ member
  obtain ⟨low, high⟩ := bounds_of_mem_indexedFrom member
  simp only [Bool.not_eq_true', List.any_eq_false, Bool.and_eq_true, decide_eq_true_eq]
  intro range listed
  have := outside range listed
  omega

private theorem withoutFrom_of_inside {t : Text} (listed : range ∈ ranges) (low : range.1 ≤ start)
    (high : start + size t ≤ range.2) : withoutFrom start ranges t = [] := by
  rw [withoutFrom, List.map_eq_nil_iff, List.filter_eq_nil_iff]
  rintro ⟨i, c⟩ member
  obtain ⟨low', high'⟩ := bounds_of_mem_indexedFrom member
  simp only [Bool.not_eq_true', List.any_eq_false, Bool.and_eq_true, decide_eq_true_eq]
  intro outside
  exact outside range listed (by omega)

private theorem withoutFrom_cons_of_behind (passed : range.2 ≤ start) (t : Text) :
    withoutFrom start (range :: ranges) t = withoutFrom start ranges t := by
  rw [withoutFrom, withoutFrom]
  congr 1
  refine List.filter_congr ?_
  rintro ⟨i, c⟩ member
  obtain ⟨low, -⟩ := bounds_of_mem_indexedFrom member
  have outside : (decide (range.1 ≤ i) && decide (i < range.2)) = false := by
    rw [Bool.and_eq_false_iff, decide_eq_false_iff_not, decide_eq_false_iff_not]
    omega
  simp [outside]

end Without

end Text

namespace Record

open Text

/-! ### Structs by offset -/

/-- A struct at a byte range of a text, with other ranges of the text: it starts with a keyword
outside comments and literals, with nothing before it on its line but blanks and what is in ranges
before it, and it ends with the brace that closes the one behind its name. -/
structure StandsAt (t : Text) (ranges : List (Nat × Nat)) (range : Nat × Nat) (record : Record) :
    Prop where
  keyword : isKeywordAt t range.1 = true
  first : ∀ i c, (i, c) ∈ t.indexed → i < range.1 → t.lineNumberAt i = t.lineNumberAt range.1 →
    isBlank c = true ∨ ∃ earlier ∈ ranges, earlier.2 ≤ range.1 ∧ earlier.1 ≤ i ∧ i < earlier.2
  block : ∃ gap gap' brace close,
    t.slice range.1 brace = Keyword.record ++ (gap ++ (record.name ++ gap')) ∧
    (∀ c ∈ gap ++ gap', isGap c = true) ∧ (brace, '{') ∈ t.code ∧
    t.matchingBracket? brace '{' '}' = some close ∧ range.2 = close + 1 ∧
    record.fields = fieldsOf (t.slice (brace + 1) close)

/-- Whether the last line of a text has only blanks outside some ranges. -/
def Covered (ranges : List (Nat × Nat)) (s : Text) : Prop :=
  ∀ u c v, s = u ++ c :: v → '\n' ∉ c :: v →
    isBlank c = true ∨ ∃ range ∈ ranges, range.2 ≤ size s ∧ range.1 ≤ size u ∧ size u < range.2

private theorem isKeywordAt_of_written {t : Text} {front struct after : List Piece}
    {record : Record} (split : t.pieces = front ++ (struct ++ after))
    (written : Written record struct) :
    isKeywordAt t (size (spell front)) = true := by
  obtain @⟨gap, name, gap', inside, -, -, -, -, -⟩ := written
  have starts : (spell ((Keyword.record ++ (gap ++ (name ++ gap'))).map .code ++
      .code '{' :: (inside ++ [.code '}']) ++ after)).startsWith Keyword.record = true := by
    rw [startsWith, List.isPrefixOf_iff_prefix]
    simp
  rw [isKeywordAt_size split, starts, Bool.true_and]
  exact isNone_spanHolding?_of_code split

private theorem standsAt_of_written {t : Text} {front struct after : List Piece} {record : Record}
    {ranges : List (Nat × Nat)} (split : t.pieces = front ++ (struct ++ after))
    (written : Written record struct) (covered : Covered ranges (spell front)) :
    StandsAt t ranges (size (spell front), size (spell (front ++ struct))) record where
  keyword := isKeywordAt_of_written split written
  first := by
    have whole : t = spell front ++ spell (struct ++ after) := by
      rw [← spell_append, ← split, spell_pieces]
    intro i c member before sameLine
    rw [indexed, whole, indexedFrom_append, List.mem_append] at member
    rcases member with early | late
    · obtain ⟨u, v, parts, rfl⟩ := exists_of_mem_indexedFrom early
      rw [Nat.zero_add] at sameLine ⊢
      -- Equal line numbers mean that no line feed stands between the two places.
      have inLine : '\n' ∉ c :: v := by
        have own : t.lineNumberAt (size u) = lineAfter u := by
          rw [whole, parts, List.append_assoc, lineNumberAt_size]
        rw [own, whole, lineNumberAt_size, parts, lineAfter_append] at sameLine
        exact List.count_eq_zero.mp (by omega)
      exact covered u c v parts inLine
    · have := (bounds_of_mem_indexedFrom late).1
      omega
  block := by
    obtain @⟨gap, name, gap', inside, gaps, -, -, gaps', nested⟩ := written
    have one : '{'.utf8Size = 1 := rfl
    have one' : '}'.utf8Size = 1 := rfl
    generalize header : Keyword.record ++ (gap ++ (name ++ gap')) = head at split
    have split' : t.pieces =
        (front ++ head.map .code) ++ .code '{' :: (inside ++ .code '}' :: after) := by
      rw [split]
      simp
    have whole : t = spell front ++ (head ++ ('{' :: (spell inside ++ '}' :: spell after))) := by
      rw [← spell_pieces t, split']
      simp [Piece.text]
    have place : size (spell (front ++ head.map .code)) = size (spell front) + size head := by
      simp
    refine ⟨gap, gap', size (spell front) + size head,
      size (spell front) + size head + 1 + size (spell inside), ?_,
      List.forall_mem_append.mpr ⟨gaps, gaps'⟩, ?_, ?_, ?_, ?_⟩
    · rw [header, whole]
      exact slice_append _ _ _
    · rw [code, split', codeFrom_append, Nat.zero_add, place, codeFrom]
      simp
    · rw [← place, matchingBracket?_of_pieces (by decide) split' nested]
      simp [Piece.text, one, Nat.add_assoc]
    · simp [Piece.text, one, one', Nat.add_assoc]
    · have cut := slice_append (spell front ++ (head ++ ['{'])) (spell inside) ('}' :: spell after)
      have same : spell front ++ (head ++ ['{']) ++ (spell inside ++ '}' :: spell after) = t := by
        rw [whole]
        simp
      have start : size (spell front ++ (head ++ ['{'])) = size (spell front) + size head + 1 := by
        simp [one, Nat.add_assoc]
      rw [same, start] at cut
      rw [cut]

/-! ### All structs of a text -/

section Ranges

variable {earlier : List (Nat × Nat)} {gone start struct after : List Piece}

/-- What is covered stays covered in front of a text whose last line is covered too. -/
theorem Covered.append {ranges : List (Nat × Nat)} {s r : Text} (covered : Covered earlier s)
    (more : earlier ⊆ ranges)
    (own : ∀ u c v, r = u ++ c :: v → '\n' ∉ c :: v → isBlank c = true ∨
      ∃ range ∈ ranges, range.2 ≤ size (s ++ r) ∧ range.1 ≤ size (s ++ u) ∧
        size (s ++ u) < range.2) :
    Covered ranges (s ++ r) := by
  intro u c v whole inLine
  rcases List.append_eq_append_iff.mp whole with ⟨w, rfl, rest⟩ | ⟨w, first, rest⟩
  · exact own w c v rest inLine
  · cases w with
    | nil =>
      have here := own [] c v rest.symm inLine
      rw [List.append_nil] at first here
      rwa [first] at here ⊢
    | cons d w =>
      obtain ⟨rfl, rfl⟩ := List.cons.inj rest
      refine (covered u c w first fun member => inLine ?_).imp_right ?_
      · exact List.mem_append_left r member
      · rintro ⟨range, listed, bound, low, high⟩
        refine ⟨range, more listed, ?_, low, high⟩
        rw [size_append]
        omega

private theorem Covered.append_start (covered : Covered earlier (spell gone))
    (found : FoundBehind true start after) : Covered earlier (spell (gone ++ start)) := by
  rw [spell_append]
  refine covered.append (List.Subset.refl _) fun u c v whole inLine => .inl ?_
  exact found.isBlank_of_suffix ⟨u, whole.symm⟩ inLine c List.mem_cons_self

private theorem Covered.append_struct (covered : Covered earlier (spell gone))
    (struct : List Piece) :
    Covered (earlier ++ [(size (spell gone), size (spell (gone ++ struct)))])
      (spell (gone ++ struct)) := by
  rw [spell_append]
  refine covered.append (List.subset_append_left _ _) fun u c v whole inLine => .inr ?_
  have positive := c.utf8Size_pos
  refine ⟨_, List.mem_append_right _ (List.mem_singleton_self _), Nat.le_refl _, ?_, ?_⟩
  · change size (spell gone) ≤ size (spell gone ++ u)
    rw [size_append]
    exact Nat.le_add_right _ _
  · change size (spell gone ++ u) < size (spell gone ++ spell struct)
    rw [whole, size_append, size_append, size_append, size_cons]
    omega

/-- Structs that are taken out one behind the other are disjoint ranges of the text. -/
theorem TakenOut.exists_ranges {t : Text} {rest left : List Piece} {records : List Record}
    (out : TakenOut rest records left) (split : t.pieces = gone ++ rest)
    (covered : Covered earlier (spell gone)) :
    ∃ ranges, (∀ range ∈ ranges,
        size (spell gone) ≤ range.1 ∧ range.1 < range.2 ∧ range.2 ≤ t.size) ∧
      ranges.Pairwise (·.2 ≤ ·.1) ∧
      List.Forall₂ (StandsAt t (earlier ++ ranges)) ranges records ∧
      spell left = withoutFrom (size (spell gone)) ranges (spell rest) := by
  induction out generalizing gone earlier with
  | done => exact ⟨[], by simp, .nil, .nil, (withoutFrom_of_outside (by simp)).symm⟩
  | @next start struct after afterKeyword left record records found written rest ih =>
    have covered' := covered.append_start found
    have split' : t.pieces = (gone ++ start ++ struct) ++ after := by
      rw [split]
      simp
    have split'' : t.pieces = (gone ++ start) ++ (struct ++ after) := by
      rw [split]
      simp
    have total : t.size = size (spell (gone ++ start ++ struct)) + size (spell after) := by
      rw [← size_append, ← spell_append, ← split', spell_pieces]
    have nonempty : 0 < size (spell struct) := by
      refine Nat.pos_of_ne_zero (ne_zero_size ?_)
      obtain ⟨-, -, -, -, -⟩ := written
      simp [Piece.text]
    obtain ⟨ranges, within, disjoint, structs, kept⟩ :=
      ih split' (covered'.append_struct struct)
    generalize own : (size (spell (gone ++ start)), size (spell (gone ++ start ++ struct))) = range
      at structs
    have low : range.1 = size (spell gone) + size (spell start) := by
      rw [← own]
      simp
    have high : range.2 = range.1 + size (spell struct) := by
      rw [← own]
      simp [Nat.add_assoc]
    have reached : size (spell (gone ++ start ++ struct)) = range.2 := by rw [← own]
    rw [reached] at within kept total
    refine ⟨range :: ranges, ?_, ?_, ?_, ?_⟩
    · refine List.forall_mem_cons.mpr ⟨by omega, fun later listed => ?_⟩
      have := within later listed
      omega
    · exact List.pairwise_cons.mpr ⟨fun later listed => (within later listed).1, disjoint⟩
    · rw [List.append_assoc, List.singleton_append] at structs
      refine .cons ?_ structs
      rw [← own]
      refine standsAt_of_written split'' written ?_
      intro u c v whole inLine
      refine (covered' u c v whole inLine).imp_right ?_
      rintro ⟨range, listed, bounds⟩
      exact ⟨range, List.mem_append_left _ listed, bounds⟩
    · have front : withoutFrom (size (spell gone)) (range :: ranges) (spell start) =
          spell start := by
        refine withoutFrom_of_outside (List.forall_mem_cons.mpr ⟨.inl (by omega), ?_⟩)
        intro later listed
        have := within later listed
        exact .inl (by omega)
      have middle : withoutFrom (size (spell gone) + size (spell start)) (range :: ranges)
          (spell struct) = [] :=
        withoutFrom_of_inside List.mem_cons_self (by omega) (by omega)
      have behind : size (spell gone) + size (spell start) + size (spell struct) = range.2 := by
        omega
      rw [spell_append, spell_append, spell_append, withoutFrom_append, withoutFrom_append, front,
        middle, List.nil_append, behind, withoutFrom_cons_of_behind (Nat.le_refl _), kept]

end Ranges

/-- A text that is cleared of its structs: they are disjoint ranges of it, in order, what is left is
the text without these ranges, and no line of that starts with a struct. -/
structure Clears (old new : Text) (ranges : List (Nat × Nat)) (records : List Record) : Prop where
  inside : ∀ range ∈ ranges, range.1 < range.2 ∧ range.2 ≤ old.size
  disjoint : ranges.Pairwise (·.2 ≤ ·.1)
  structs : List.Forall₂ (StandsAt old ranges) ranges records
  removed : new = old.without ranges
  exhaustive : ∀ i ∈ new.bodyOffsets, isKeywordAt new i = false

private theorem exists_clears_of_extractAll
    (extracted : extractAll className source records text = .ok (taken, left)) :
    ∃ new ranges, taken = records ++ new ∧ Clears text left ranges new := by
  obtain ⟨new, leftover, rfl, spelled, out⟩ :=
    exists_takenOut_of_extractAll (List.nil_append _).symm Passed.nil extracted
  have covered : Covered [] (spell []) := fun u c v whole => by simp at whole
  obtain ⟨ranges, within, disjoint, structs, kept⟩ :=
    out.exists_ranges (List.nil_append _).symm covered
  rw [spell_pieces] at kept
  refine ⟨new, ranges, rfl, fun range listed => (within range listed).2, disjoint, structs,
    spelled.trans kept, ?_⟩
  have none : keywordAt? left = none := by
    rw [keywordAt?_eq, findKeyword?_of_extractFirst (extractFirst_of_extractAll extracted)]
    rfl
  simpa [keywordAt?] using none

/-! ### The slots of a unit -/

/-- Structs cannot be taken out of a text forever. -/
theorem wellFounded_extraction (source : Text) :
    WellFounded fun next text : Text => ∃ found, extractFirst text source = .ok (some found) ∧
      next = found.before ++ found.after := by
  refine Subrelation.wf ?_ (measure List.length).wf
  rintro next text ⟨found, extracted, rfl⟩
  exact length_of_extractFirst extracted

private theorem takeRecords_cases (unit : SourceUnit) (className source : Text) :
    (∃ d, extractAll className source [] (unit.get .entryPoint) = .error d ∧
      takeRecords unit className source = (.error d, unit)) ∨
    ∃ first entry, extractAll className source [] (unit.get .entryPoint) = .ok (first, entry) ∧
      ((∃ d, extractAll className source first (unit.get .userFunctions) = .error d ∧
        takeRecords unit className source = (.error d, unit.fill .entryPoint entry)) ∨
      ∃ all functions,
        extractAll className source first (unit.get .userFunctions) = .ok (all, functions) ∧
        takeRecords unit className source =
          (.ok all, (unit.fill .entryPoint entry).fill .userFunctions functions)) := by
  rw [takeRecords, Slot.userCode, extractFromSlots]
  cases extractAll className source [] (unit.get .entryPoint) with
  | error d => exact .inl ⟨d, rfl, rfl⟩
  | ok taken =>
    obtain ⟨first, entry⟩ := taken
    refine .inr ⟨first, entry, rfl, ?_⟩
    have same : (unit.fill .entryPoint entry).get .userFunctions = unit.get .userFunctions :=
      SourceUnit.get_fill_of_ne unit entry (by decide)
    dsimp only
    rw [extractFromSlots, same]
    cases extractAll className source first (unit.get .userFunctions) with
    | error d => exact .inl ⟨d, rfl, rfl⟩
    | ok taken => exact .inr ⟨taken.1, taken.2, rfl, rfl⟩

/-- **Taking the structs out of the user code.** The loop ends. If it succeeds, the texts of the
entry point and of the functions lose disjoint ranges, one for each record and in the order of the
records, and no struct is left in them; the records have names of their own, and no other slot
changes. If it fails, the slot with the problem and all that are not finished are as they were. -/
theorem takeRecords_clears (unit : SourceUnit) (className source : Text) :
    (WellFounded fun next text : Text => ∃ found, extractFirst text source = .ok (some found) ∧
      next = found.before ++ found.after) ∧
    (∀ records, (takeRecords unit className source).1 = .ok records →
      WellNamed className records ∧
      (∃ first second, records = first ++ second ∧
        (∃ ranges, Clears (unit.get .entryPoint)
          ((takeRecords unit className source).2.get .entryPoint) ranges first) ∧
        ∃ ranges, Clears (unit.get .userFunctions)
          ((takeRecords unit className source).2.get .userFunctions) ranges second) ∧
      ∀ slot, slot ≠ .entryPoint → slot ≠ .userFunctions →
        (takeRecords unit className source).2.get slot = unit.get slot) ∧
    ∀ d, (takeRecords unit className source).1 = .error d →
      (extractAll className source [] (unit.get .entryPoint) = .error d ∧
        ∀ slot, (takeRecords unit className source).2.get slot = unit.get slot) ∨
      ∃ first entry, extractAll className source [] (unit.get .entryPoint) = .ok (first, entry) ∧
        extractAll className source first (unit.get .userFunctions) = .error d ∧
        ∀ slot, slot ≠ .entryPoint →
          (takeRecords unit className source).2.get slot = unit.get slot := by
  refine ⟨wellFounded_extraction source, ?_, ?_⟩
  · intro records done
    have named : WellNamed className records :=
      (show WellNamed className [] from ⟨.nil, by simp, by simp, by simp⟩).of_extractFromSlots done
    rcases takeRecords_cases unit className source with
      ⟨d, -, result⟩ | ⟨first, entry, early, ⟨d, -, result⟩ | ⟨all, functions, late, result⟩⟩
    · rw [result] at done
      cases done
    · rw [result] at done
      cases done
    · rw [result] at done ⊢
      obtain rfl : all = records := Except.ok.inj done
      obtain ⟨_, ranges, rfl, clears⟩ := exists_clears_of_extractAll early
      obtain ⟨second, ranges', rfl, clears'⟩ := exists_clears_of_extractAll late
      refine ⟨named, ⟨first, second, rfl, ⟨ranges, ?_⟩, ranges', ?_⟩, ?_⟩
      · rwa [SourceUnit.get_fill_of_ne _ _ (by decide), SourceUnit.get_fill_self]
      · rwa [SourceUnit.get_fill_self]
      · intro slot other other'
        rw [SourceUnit.get_fill_of_ne _ _ other', SourceUnit.get_fill_of_ne _ _ other]
  · intro d failed
    rcases takeRecords_cases unit className source with
      ⟨d', early, result⟩ | ⟨first, entry, early, ⟨d', late, result⟩ | ⟨all, functions, -, result⟩⟩
    · rw [result] at failed ⊢
      cases failed
      exact .inl ⟨early, fun slot => rfl⟩
    · rw [result] at failed ⊢
      cases failed
      exact .inr ⟨first, entry, early, late, fun slot => SourceUnit.get_fill_of_ne unit entry⟩
    · rw [result] at failed
      cases failed

/-- Two structs on one line, the second over two lines, and one among the functions. -/
theorem takeRecords_clears_neighbours :
    let unit := (SourceUnit.empty.fill .entryPoint
      "struct Pair \x7b int a; int b; \x7d struct Unit \x7b\n\x7d run();\n").fill .userFunctions
      "void run() \x7b\n\tstruct Own \x7b char c = '\x7d'; \x7d\n\x7d\n"
    let records : List Record :=
      [⟨"Pair", ["int a", "int b"]⟩, ⟨"Unit", []⟩, ⟨"Own", ["char c = '\x7d'"]⟩]
    (takeRecords unit "Main" []).1 = .ok records ∧
      (takeRecords unit "Main" []).2.get .entryPoint = "  run();\n" ∧
      WellNamed "Main" records ∧
      ∃ first second, records = first ++ second ∧
        (∃ ranges, Clears (unit.get .entryPoint)
          ((takeRecords unit "Main" []).2.get .entryPoint) ranges first) ∧
        ∃ ranges, Clears (unit.get .userFunctions)
          ((takeRecords unit "Main" []).2.get .userFunctions) ranges second := by
  intro unit records
  have done : (takeRecords unit "Main" []).1 = .ok records := by decide +kernel
  obtain ⟨-, success, -⟩ := takeRecords_clears unit "Main" []
  obtain ⟨named, clears, -⟩ := success records done
  exact ⟨done, by decide +kernel, named, clears⟩

end Record

end ScriptLoom
