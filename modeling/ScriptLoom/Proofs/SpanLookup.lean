import Mathlib.Data.List.Nodup
import ScriptLoom.Proofs.Boundaries
import ScriptLoom.Proofs.LexicalGrammar

/-! # Looking up spans

The span at an offset is found by a binary search that looks at one candidate: the last span that
starts at or before the offset. That is enough since the spans of a text are not empty, come in
order and do not overlap (`Text.spanHolding?_eq_some_iff`). So the search agrees with a look through
all comments and literals (`Text.indexed_spans`), and the code of a text is what the search leaves
(`Text.code_eq_filter`).
-/

namespace ScriptLoom

/-! ### The partition point -/

/-- The search finds the place where a list changes from items that pass a test to items that
fail it. -/
theorem partitionPoint_append {α : Type} {test : α → Bool} {front back : List α}
    (passes : ∀ x ∈ front, test x = true) (fails : ∀ x ∈ back, test x = false) :
    partitionPoint test (front ++ back) = front.length := by
  generalize whole : front ++ back = items
  fun_induction partitionPoint test items generalizing front back with
  | case1 items none =>
    have short := List.drop_eq_nil_iff.mp none
    have length := congrArg List.length whole
    rw [List.length_append] at length
    omega
  | case2 items middle later split passed ih =>
    have halves := List.take_append_drop (items.length / 2) items
    have half : (items.take (items.length / 2)).length = items.length / 2 := by simp; omega
    have inFront : middle ∉ back := fun member => by simp [fails middle member] at passed
    rw [split] at halves
    rcases List.append_eq_append_iff.mp (whole.trans halves.symm) with
      ⟨_, -, rfl⟩ | ⟨more, early, rest⟩
    · exact absurd (by simp) inFront
    · cases more with
      | nil => exact absurd (by simp [← show _ = back from rest]) inFront
      | cons first more =>
        obtain ⟨rfl, rfl⟩ := List.cons.inj rest
        have later : ∀ x ∈ more, test x = true := fun x member =>
          passes x (early ▸ List.mem_append_right _ (List.mem_cons_of_mem _ member))
        rw [ih later fails rfl, early, List.length_append, List.length_cons, half]
        omega
  | case3 items middle later split failed ih =>
    have halves := List.take_append_drop (items.length / 2) items
    have inBack : middle ∉ front := fun member => failed (passes middle member)
    rw [split] at halves
    rcases List.append_eq_append_iff.mp (whole.trans halves.symm) with
      ⟨between, early, rfl⟩ | ⟨more, early, rest⟩
    · exact ih passes (fun x member => fails x (List.mem_append_left _ member)) early.symm
    · cases more with
      | nil =>
        rw [List.append_nil] at early
        exact ih passes (List.forall_mem_nil _) (by rw [early, List.append_nil])
      | cons first more =>
        obtain ⟨rfl, -⟩ := List.cons.inj rest
        exact absurd (by simp [early]) inBack

/-- A span contains the offsets from its start on that are before its stop. -/
theorem Span.contains_iff {span : Span} {i : Nat} :
    span.contains i = true ↔ span.start ≤ i ∧ i < span.stop := by
  simp [Span.contains]

namespace Text

/-! ### The spans of a text -/

/-- The spans of a text divide it from the start. -/
theorem lexedFrom_spans (t : Text) : LexedFrom t 0 t.spans :=
  (lexedFrom_iff (show t.pieces = [] ++ t.pieces from rfl)).mpr rfl

variable {t : Text} {span : Span} {i : Nat}

private theorem start_lt_stop_of_mem_spans (member : span ∈ t.spans) : span.start < span.stop := by
  obtain ⟨_, body, _, -, start, stop, delimited⟩ := t.lexedFrom_spans.regions span member
  have positive := size_pos_of_delimited delimited
  omega

private theorem slicesTo_of_mem_spans (member : span ∈ t.spans) :
    ∃ body, t.SlicesTo (span.start, span.stop) body := by
  obtain ⟨before, body, after, rfl, start, stop, -⟩ := t.lexedFrom_spans.regions span member
  rw [start, stop]
  exact ⟨body, slicesTo_append before body after⟩

private theorem pairwise_start_spans (t : Text) : t.spans.Pairwise (·.start < ·.start) := by
  refine t.lexedFrom_spans.ordered.imp_of_mem fun {a b} first second follows => ?_
  exact Nat.lt_of_lt_of_le (start_lt_stop_of_mem_spans first) follows

private theorem disjoint_spans (t : Text) :
    t.spans.Pairwise fun a b => ∀ i, ¬(a.contains i = true ∧ b.contains i = true) := by
  refine t.lexedFrom_spans.ordered.imp fun {a b} follows i both => ?_
  have first := Span.contains_iff.mp both.1
  have second := Span.contains_iff.mp both.2
  omega

/-- The spans that start at or before an offset come before the others. -/
theorem exists_append_of_ascending {spans : List Span}
    (ascending : spans.Pairwise (·.start < ·.start)) (i : Nat) :
    ∃ front back, spans = front ++ back ∧
      (∀ s ∈ front, s.start ≤ i) ∧ ∀ s ∈ back, i < s.start := by
  induction spans with
  | nil => exact ⟨[], [], rfl, by simp, by simp⟩
  | cons first spans ih =>
    obtain ⟨least, ascends⟩ := List.pairwise_cons.mp ascending
    by_cases reached : first.start ≤ i
    · obtain ⟨front, back, rfl, early, late⟩ := ih ascends
      exact ⟨first :: front, back, rfl, List.forall_mem_cons.mpr ⟨reached, early⟩, late⟩
    · refine ⟨[], first :: spans, rfl, by simp, List.forall_mem_cons.mpr ⟨by omega, ?_⟩⟩
      intro s member
      have := least s member
      omega

/-- The span at an offset is the one that holds it. -/
theorem spanHolding?_eq_some_iff :
    t.spanHolding? i = some span ↔ span ∈ t.spans ∧ span.contains i = true := by
  have ordered := t.lexedFrom_spans.ordered
  obtain ⟨front, back, whole, early, late⟩ := exists_append_of_ascending t.pairwise_start_spans i
  rw [whole] at ordered
  rw [spanHolding?, whole]
  have point : partitionPoint (fun s : Span => decide (s.start ≤ i)) (front ++ back) =
      front.length :=
    partitionPoint_append (by simpa using early) (by simpa using late)
  rw [point]
  have notLate : span.contains i = true → span ∉ back := by
    intro holds member
    have := late span member
    have := Span.contains_iff.mp holds
    omega
  rcases List.eq_nil_or_concat front with rfl | ⟨front, last, rfl⟩
  · constructor
    · intro none
      cases none
    · rintro ⟨member, holds⟩
      exact absurd member (notLate holds)
  · rw [List.concat_eq_append] at early ordered ⊢
    rw [List.length_append, List.length_singleton]
    have candidate : ((front ++ [last]) ++ back)[front.length]? = some last := by simp
    dsimp only
    rw [candidate, Option.filter_eq_some_iff, Option.some_inj]
    constructor
    · rintro ⟨rfl, holds⟩
      exact ⟨by simp, holds⟩
    · rintro ⟨member, holds⟩
      refine ⟨?_, holds⟩
      rcases List.mem_append.mp member with inFront | inBack
      · rcases List.mem_append.mp inFront with earlier | own
        · -- An earlier span ends before the last one starts.
          rw [List.append_assoc] at ordered
          have ends := (List.pairwise_append.mp ordered).2.2 span earlier last (by simp)
          have starts := early last (by simp)
          have := Span.contains_iff.mp holds
          omega
        · exact (List.mem_singleton.mp own).symm
      · exact absurd inBack (notLate holds)

/-- An offset is ignored exactly if a span contains it. -/
theorem isIgnored_iff : t.isIgnored i = true ↔ ∃ span ∈ t.spans, span.contains i = true := by
  rw [isIgnored, Option.isSome_iff_exists]
  exact exists_congr fun span => spanHolding?_eq_some_iff

/-! ### Comments and literals -/

private theorem pairwise_filter_spans (kept : Span → Bool) (t : Text) :
    (t.spans.filter kept).Pairwise fun a b => decide (a.start ≤ b.start) = true := by
  refine (t.pairwise_start_spans.sublist List.filter_sublist).imp fun {a b} less => ?_
  exact decide_eq_true less.le

/-- The comments and the literals, put in order, are the spans. -/
theorem merge_comments_literals (t : Text) :
    t.comments.merge t.literals (fun a b => decide (a.start ≤ b.start)) = t.spans := by
  have all : t.comments ++ t.literals = t.spans.filter (·.kind = .comment) ++
      t.spans.filter (fun span => !decide (span.kind = .comment)) := by
    rw [comments, literals]
    simp
  have whole : (t.comments.merge t.literals fun a b => decide (a.start ≤ b.start)).Perm t.spans :=
    (List.merge_perm_append _).trans (all ▸ List.filter_append_perm _ t.spans)
  have starts : (t.spans.map Span.start).Nodup :=
    List.pairwise_map.mpr (t.pairwise_start_spans.imp Nat.ne_of_lt)
  have ordered : (t.comments.merge t.literals fun a b => decide (a.start ≤ b.start)).Pairwise
      fun a b => decide (a.start ≤ b.start) = true := by
    refine List.pairwise_merge ?_ ?_ _ _ (t.pairwise_filter_spans _) (t.pairwise_filter_spans _)
    · intro a b c first second
      exact decide_eq_true ((of_decide_eq_true first).trans (of_decide_eq_true second))
    · intro a b
      rcases Nat.le_total a.start b.start with le | ge
      · simp [le]
      · simp [ge]
  refine whole.eq_of_pairwise ?_ ordered (t.pairwise_start_spans.imp fun less => ?_)
  · intro a b first second le ge
    exact List.inj_on_of_nodup_map starts (whole.mem_iff.mp first) second
      (Nat.le_antisymm (of_decide_eq_true le) (of_decide_eq_true ge))
  · exact decide_eq_true less.le

/-- What the index of the comments and literals of a text shows. -/
structure Indexed (t : Text) : Prop where
  nonempty : ∀ span ∈ t.spans, span.start < span.stop
  within : ∀ span ∈ t.spans, span.stop ≤ t.size
  boundaries : ∀ span ∈ t.spans, t.IsBoundary span.start ∧ t.IsBoundary span.stop
  ascending : t.spans.Pairwise (·.start < ·.start)
  disjoint : t.spans.Pairwise fun a b => ∀ i, ¬(a.contains i = true ∧ b.contains i = true)
  comments_sublist : t.comments.Sublist t.spans
  mem_comments : ∀ span, span ∈ t.comments ↔ span ∈ t.spans ∧ span.kind = .comment
  literals_sublist : t.literals.Sublist t.spans
  mem_literals : ∀ span, span ∈ t.literals ↔ span ∈ t.spans ∧ span.kind ≠ .comment
  merged : t.comments.merge t.literals (fun a b => decide (a.start ≤ b.start)) = t.spans
  found : ∀ i span, t.spanHolding? i = some span ↔ span ∈ t.spans ∧ span.contains i = true
  ignored : ∀ i, t.isIgnored i =
    (t.comments.any (·.contains i) || t.literals.any (·.contains i))

/-- **The index of a text.** Its spans are not empty, lie in the text and between characters, and
come in order without overlaps; comments and literals divide them, and the span found for an offset,
be it past the end, is the one that holds it. -/
theorem indexed_spans (t : Text) : t.Indexed where
  nonempty _ := start_lt_stop_of_mem_spans
  within span member := by
    obtain ⟨body, slice⟩ := slicesTo_of_mem_spans member
    exact slice.bounded
  boundaries span member := by
    obtain ⟨body, slice⟩ := slicesTo_of_mem_spans member
    exact ⟨slice.starts, slice.stops⟩
  ascending := t.pairwise_start_spans
  disjoint := t.disjoint_spans
  comments_sublist := List.filter_sublist
  mem_comments span := by simp [comments]
  literals_sublist := List.filter_sublist
  mem_literals span := by simp [literals]
  merged := t.merge_comments_literals
  found _ _ := spanHolding?_eq_some_iff
  ignored i := by
    rw [Bool.eq_iff_iff, isIgnored_iff, Bool.or_eq_true, List.any_eq_true, List.any_eq_true]
    constructor
    · rintro ⟨span, member, holds⟩
      by_cases comment : span.kind = .comment
      · exact .inl ⟨span, by simp [comments, member, comment], holds⟩
      · exact .inr ⟨span, by simp [literals, member, comment], holds⟩
    · rintro (⟨span, member, holds⟩ | ⟨span, member, holds⟩)
      · exact ⟨span, (List.mem_filter.mp member).1, holds⟩
      · exact ⟨span, (List.mem_filter.mp member).1, holds⟩

example : (spanHolding? "\"a\"'b'//c" 3, spanHolding? "\"a\"'b'//c" 9) =
    (some ⟨3, 6, .character, true⟩, none) := by
  decide +kernel

/-! ### Offsets of pieces -/

variable {before after : List Piece}

/-- Code is not ignored. -/
theorem isIgnored_of_code {c : Char} (split : t.pieces = before ++ .code c :: after) :
    t.isIgnored (size (spell before)) = false := by
  have positive := c.utf8Size_pos
  refine Bool.eq_false_iff.mpr fun ignored => ?_
  obtain ⟨span, member, holds⟩ := isIgnored_iff.mp ignored
  have bounds := Span.contains_iff.mp holds
  rw [spans, split, spansFrom_append, Nat.zero_add] at member
  rcases List.mem_append.mp member with early | late
  · have bound := (bounds_of_mem_spansFrom early).2
    omega
  · rw [spansFrom] at late
    have bound := (bounds_of_mem_spansFrom late).1
    omega

/-- A region among the pieces is a span at its place. -/
theorem mem_spans_of_region {kind : Region} {body : Text} {closed : Bool}
    (split : t.pieces = before ++ .region kind body closed :: after) :
    ⟨size (spell before), size (spell before) + size body, kind, closed⟩ ∈ t.spans := by
  rw [spans, split, spansFrom_append, Nat.zero_add, spansFrom]
  exact List.mem_append_right _ List.mem_cons_self

/-- All bytes of a region are ignored. -/
theorem isIgnored_of_region {kind : Region} {body : Text} {closed : Bool}
    (split : t.pieces = before ++ .region kind body closed :: after)
    (low : size (spell before) ≤ i) (high : i < size (spell before) + size body) :
    t.isIgnored i = true :=
  isIgnored_iff.mpr ⟨_, mem_spans_of_region split, Span.contains_iff.mpr ⟨low, high⟩⟩

private theorem filter_indexedFrom_spell {done ps : List Piece} (split : t.pieces = done ++ ps) :
    (indexedFrom (size (spell done)) (spell ps)).filter (fun place => !t.isIgnored place.1) =
      codeFrom (size (spell done)) ps := by
  induction ps generalizing done with
  | nil => rfl
  | cons p ps ih =>
    have further := ih (show t.pieces = (done ++ [p]) ++ ps by rw [split, List.append_assoc]; rfl)
    rw [spell_append, spell_cons, spell_nil, List.append_nil, size_append] at further
    rw [spell_cons, indexedFrom_append, List.filter_append, further]
    cases p with
    | code c => simp [Piece.text, indexedFrom, codeFrom, isIgnored_of_code split]
    | region kind body closed =>
      have none : (indexedFrom (size (spell done)) body).filter
          (fun place => !t.isIgnored place.1) = [] := by
        refine List.filter_eq_nil_iff.mpr fun place member => ?_
        obtain ⟨u, v, rfl, offset⟩ := exists_of_mem_indexedFrom member
        have positive := place.2.utf8Size_pos
        have inside : t.isIgnored place.1 = true :=
          isIgnored_of_region split (by omega) (by rw [size_append, size_cons]; omega)
        simp [inside]
      rw [Piece.text, none, codeFrom]
      rfl

/-- The code of a text is what lies in no span. -/
theorem code_eq_filter (t : Text) :
    t.code = t.indexed.filter fun place => !t.isIgnored place.1 := by
  have all := filter_indexedFrom_spell (show t.pieces = [] ++ t.pieces from rfl)
  rw [spell_pieces] at all
  exact all.symm

end Text

end ScriptLoom
