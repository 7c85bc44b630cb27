import ScriptLoom.Program
import ScriptLoom.Proofs.ExpansionParts
import ScriptLoom.Proofs.JoinedLines
import ScriptLoom.Proofs.StructLines

/-! # Scripts that differ in their layout

Blank lines and blanks at the ends of lines do not matter: two scripts without comments and problems
that have the same lines apart from them give the same program
(`Program.ofScript_eq_ok_iff_of_linesBetween`). The pieces of such texts are related (`Relaid`):
they are the same but for the blanks around their line feeds, and for blanks at the end. A format
call of one is a format call of the other, with the same arguments, and its expansion leaves related
pieces; so the expansions of both texts have the same lines of code.

The gaps of a format call are narrower than blanks: a line of other blanks inside of a call keeps it
from being one. So for blanks at large no line may go on with a call.
-/

namespace ScriptLoom

/-! ### Signs behind gaps -/

/-- A sign stands behind gaps at the front of pieces. -/
def SignBehind (sign : Char) (ps rest : List Piece) : Prop :=
  ∃ gap : Text, (∀ c ∈ gap, Text.isGap c = true) ∧ ps = gap.map .code ++ .code sign :: rest

/-- Whether pieces may go on with a format call behind gaps. -/
def ContinuesBehind (ps : List Piece) : Prop :=
  ∃ sign rest, (sign = '%' ∨ sign = '(') ∧ SignBehind sign ps rest

variable {sign : Char} {p : Piece} {ps qs rest : List Piece}

private theorem signBehind_cons :
    SignBehind sign (p :: ps) rest ↔
      p = .code sign ∧ ps = rest ∨
        ∃ c, p = .code c ∧ Text.isGap c = true ∧ SignBehind sign ps rest := by
  constructor
  · rintro ⟨_ | ⟨c, gap⟩, isGap, whole⟩
    · cases whole
      exact .inl ⟨rfl, rfl⟩
    · obtain ⟨first, later⟩ := List.forall_mem_cons.mp isGap
      cases whole
      exact .inr ⟨c, rfl, first, gap, later, rfl⟩
  · rintro (⟨rfl, rfl⟩ | ⟨c, rfl, first, gap, later, rfl⟩)
    · exact ⟨[], by simp, rfl⟩
    · exact ⟨c :: gap, List.forall_mem_cons.mpr ⟨first, later⟩, rfl⟩

private theorem signBehind_append {blanks : Text} (other : ∀ c ∈ blanks, c ≠ sign) :
    SignBehind sign (blanks.map .code ++ ps) rest ↔
      (∀ c ∈ blanks, Text.isGap c = true) ∧ SignBehind sign ps rest := by
  induction blanks with
  | nil => simp
  | cons c blanks ih =>
    obtain ⟨differs, later⟩ := List.forall_mem_cons.mp other
    rw [List.map_cons, List.cons_append, signBehind_cons, List.forall_mem_cons, ih later]
    simp only [Piece.code.injEq, differs, false_and, false_or, exists_eq_left', and_assoc]

/-- Behind a region there is no sign. -/
theorem signBehind_append_region {before : List Piece} {kind : Region} {body : Text}
    {closed : Bool} (found : SignBehind sign (before ++ .region kind body closed :: ps) rest)
    (qs : List Piece) :
    ∃ rest', SignBehind sign (before ++ .region kind body closed :: qs) rest' := by
  induction before generalizing rest with
  | nil =>
    rw [List.nil_append, signBehind_cons] at found
    rcases found with ⟨same, -⟩ | ⟨c, same, -, -⟩ <;> cases same
  | cons p before ih =>
    rw [List.cons_append, signBehind_cons] at found
    rcases found with ⟨rfl, rfl⟩ | ⟨c, rfl, gap, later⟩
    · exact ⟨_, signBehind_cons.mpr (.inl ⟨rfl, rfl⟩)⟩
    · obtain ⟨rest', found'⟩ := ih later
      exact ⟨rest', signBehind_cons.mpr (.inr ⟨c, rfl, gap, found'⟩)⟩

private theorem FormatCall.argumentsAfter?_iff {inside : List Piece} :
    (∃ percent, argumentsAfter? ps = some (percent, inside)) ↔
      ∃ rest, SignBehind '%' ps rest ∧ SignBehind '(' rest inside := by
  constructor
  · rintro ⟨percent, found⟩
    obtain ⟨gap, gap', rfl, -, isGap, isGap'⟩ := exists_of_argumentsAfter? found
    exact ⟨_, ⟨gap, isGap, rfl⟩, gap', isGap', rfl⟩
  · rintro ⟨rest, ⟨gap, isGap, rfl⟩, gap', isGap', rfl⟩
    exact ⟨_, argumentsAfter?_of_gaps isGap isGap' inside⟩

/-! ### Pieces with another layout -/

/-- Pieces that are the same but for the blanks around line feeds, and for blanks at the end. Where
a format call might go on behind a line feed, only gaps are exchanged. -/
inductive Relaid : List Piece → List Piece → Prop
  | trailing {blanks blanks' : Text} (blank : ∀ c ∈ blanks, Text.isBlank c = true)
      (blank' : ∀ c ∈ blanks', Text.isBlank c = true) :
      Relaid (blanks.map .code) (blanks'.map .code)
  | piece (p : Piece) {ps qs : List Piece} (later : Relaid ps qs) : Relaid (p :: ps) (p :: qs)
  | breaks {blanks blanks' : Text} (blank : ∀ c ∈ blanks, Text.isBlank c = true)
      (blank' : ∀ c ∈ blanks', Text.isBlank c = true) (feed : '\n' ∈ blanks)
      (feed' : '\n' ∈ blanks') {ps qs : List Piece}
      (plain : (∀ c ∈ blanks, Text.isGap c = true) ∧ (∀ c ∈ blanks', Text.isGap c = true) ∨
        ¬ContinuesBehind ps)
      (later : Relaid ps qs) : Relaid (blanks.map .code ++ ps) (blanks'.map .code ++ qs)

namespace Relaid

private theorem append (same : List Piece) (later : Relaid ps qs) : Relaid (same ++ ps)
    (same ++ qs) := by
  induction same with
  | nil => exact later
  | cons p same ih => exact .piece p ih

private theorem isBlank_of_isSign
    (isSign : sign = '%' ∨ sign = '(') : Text.isBlank sign = false := by
  rcases isSign with rfl | rfl <;> decide

private theorem not_mem_of_visible {c : Char} (visible : Text.isBlank c = false) {blanks : Text}
    (blank : ∀ c ∈ blanks, Text.isBlank c = true) : .code c ∉ blanks.map Piece.code := by
  rintro member
  obtain ⟨d, inside, same⟩ := List.mem_map.mp member
  cases same
  exact absurd (blank c inside) (by simp [visible])

private theorem ne_of_blank {blanks : Text} (blank : ∀ c ∈ blanks, Text.isBlank c = true)
    (isSign : sign = '%' ∨ sign = '(') : ∀ c ∈ blanks, c ≠ sign := by
  rintro c member rfl
  exact absurd (blank c member) (by simp [isBlank_of_isSign isSign])

/-- A sign behind gaps stands behind gaps in the other layout. -/
theorem exists_signBehind (relaid : Relaid ps qs) (isSign : sign = '%' ∨ sign = '(')
    (found : SignBehind sign ps rest) : ∃ rest', SignBehind sign qs rest' ∧ Relaid rest rest' := by
  induction relaid with
  | @trailing blanks _ blank blank' =>
    obtain ⟨gap, -, whole⟩ := found
    have member : Piece.code sign ∈ blanks.map .code := by simp [whole]
    exact absurd member (not_mem_of_visible (isBlank_of_isSign isSign) blank)
  | @piece p ps qs later ih =>
    rcases signBehind_cons.mp found with ⟨rfl, rfl⟩ | ⟨c, rfl, gap, further⟩
    · exact ⟨qs, signBehind_cons.mpr (.inl ⟨rfl, rfl⟩), later⟩
    · obtain ⟨rest', found', relaid⟩ := ih further
      exact ⟨rest', signBehind_cons.mpr (.inr ⟨c, rfl, gap, found'⟩), relaid⟩
  | breaks blank blank' feed feed' plain later ih =>
    obtain ⟨gaps, further⟩ := (signBehind_append (ne_of_blank blank isSign)).mp found
    obtain ⟨rest', found', relaid⟩ := ih further
    have gaps' := (plain.resolve_right (not_not.mpr ⟨sign, _, isSign, further⟩)).2
    exact ⟨rest', (signBehind_append (ne_of_blank blank' isSign)).mpr ⟨gaps', found'⟩, relaid⟩

private theorem continuesBehind (relaid : Relaid ps qs) (continues : ContinuesBehind ps) :
    ContinuesBehind qs := by
  obtain ⟨sign, rest, isSign, found⟩ := continues
  obtain ⟨rest', found', -⟩ := relaid.exists_signBehind isSign found
  exact ⟨sign, rest', isSign, found'⟩

private theorem symm (relaid : Relaid ps qs) : Relaid qs ps := by
  induction relaid with
  | trailing blank blank' => exact .trailing blank' blank
  | piece p later ih => exact .piece p ih
  | breaks blank blank' feed feed' plain later ih =>
    exact .breaks blank' blank feed' feed
      (plain.imp And.symm fun unsigned continues => unsigned (ih.continuesBehind continues)) ih

/-- Within a line nothing changes up to a visible character. -/
theorem exists_append {inside after : List Piece} {c : Char} (visible : Text.isBlank c = false)
    (inLine : .code '\n' ∉ inside) (relaid : Relaid (inside ++ .code c :: after) qs) :
    ∃ after', qs = inside ++ .code c :: after' ∧ Relaid after after' := by
  generalize whole : inside ++ .code c :: after = ps at relaid
  induction relaid generalizing inside with
  | @trailing blanks _ blank blank' =>
    have member : Piece.code c ∈ blanks.map .code := by simp [← whole]
    exact absurd member (not_mem_of_visible visible blank)
  | @piece p ps qs later ih =>
    cases inside with
    | nil =>
      cases whole
      exact ⟨qs, rfl, later⟩
    | cons q inside =>
      cases whole
      obtain ⟨after', rfl, relaid⟩ := ih (List.not_mem_of_not_mem_cons inLine) rfl
      exact ⟨after', rfl, relaid⟩
  | @breaks blanks _ blank _ feed _ ps _ _ _ _ =>
    -- the blanks end before the character, so their line feed would stand inside
    have feedThere : .code '\n' ∈ blanks.map Piece.code := List.mem_map_of_mem feed
    exfalso
    rcases List.append_eq_append_iff.mp whole with
      ⟨between, blanks_eq, after_eq⟩ | ⟨between, inside_eq, -⟩
    · cases between with
      | nil =>
        rw [blanks_eq, List.append_nil] at feedThere
        exact inLine feedThere
      | cons q between =>
        cases after_eq
        have member : Piece.code c ∈ blanks.map .code := by simp [blanks_eq]
        exact not_mem_of_visible visible blank member
    · exact inLine (inside_eq ▸ List.mem_append_left _ feedThere)

end Relaid

/-! ### The first call -/

namespace FormatCall

private theorem find?_cons_of_arguments {percent : Text} (body : Text)
    (opened : argumentsAfter? ps = some (percent, rest)) :
    find? (.region .string body true :: ps) = some ⟨body, percent, rest⟩ := by
  rw [find?, opened]

private theorem find?_cons_of_not
    (unopened : ∀ body, p = .region .string body true → argumentsAfter? ps = none) :
    find? (p :: ps) =
      (find? ps).map fun call => { call with literal := p.text ++ call.literal } := by
  by_cases literal : ∃ body, p = .region .string body true
  · obtain ⟨body, rfl⟩ := literal
    rw [find?, unopened body rfl]
    rfl
  · rw [find?]
    exact fun body same => literal ⟨body, same⟩

private theorem find?_map_code_append (s : Text) (ps : List Piece) :
    find? (s.map .code ++ ps) =
      (find? ps).map fun call => { call with literal := s ++ call.literal } := by
  induction s with
  | nil => simp
  | cons c s ih =>
    rw [List.map_cons, List.cons_append, find?_cons_of_not (by simp), ih, Option.map_map]
    rfl

/-- A call stands behind some pieces and the literal that it starts with. -/
structure StandsBehind (call : FormatCall) (ps before : List Piece) (body : Text) : Prop where
  literal : call.literal = spell before ++ body
  whole : ∃ behind rest, ps = before ++ .region .string body true :: behind ∧
    SignBehind '%' behind rest ∧ SignBehind '(' rest call.rest

private theorem StandsBehind.prepend {call : FormatCall} {before : List Piece} {body : Text}
    (stands : call.StandsBehind ps before body) (front : List Piece) :
    StandsBehind { call with literal := spell front ++ call.literal } (front ++ ps)
      (front ++ before) body := by
  obtain ⟨literal, behind, rest, rfl, signs⟩ := stands
  refine ⟨?_, behind, rest, by rw [List.append_assoc], signs⟩
  rw [spell_append, literal, List.append_assoc]

/-- The site of a call that is closed. -/
theorem StandsBehind.exists_site {call : FormatCall} {before inside after : List Piece}
    {body : Text}
    (stands : call.StandsBehind ps before body)
    (split : splitAtClose? '(' ')' 0 call.rest = some (inside, after)) :
    ∃ site : Site ps, site.before = before ∧ site.body = body ∧ site.inside = inside ∧
      site.after = after := by
  obtain ⟨-, behind, rest, whole, ⟨gap, isGap, rfl⟩, gap', isGap', rfl⟩ := stands
  obtain ⟨rest_eq, closes⟩ := eq_of_splitAtClose? split
  exact ⟨⟨before, body, gap, gap', inside, after, isGap, isGap', by rw [whole, rest_eq], closes⟩,
    rfl, rfl, rfl, rfl⟩

end FormatCall

/-- A split at a closing bracket is the same whatever follows the bracket. -/
theorem splitAtClose?_of_inside {opening closing : Char} {depth : Nat} {inside after : List Piece}
    (split : splitAtClose? opening closing depth ps = some (inside, after)) (after' : List Piece) :
    splitAtClose? opening closing depth (inside ++ .code closing :: after') =
      some (inside, after') := by
  fun_induction splitAtClose? opening closing depth ps generalizing inside after with
  | case1 => cases split
  | case2 depth ps ih =>
    obtain ⟨later, found, equal⟩ := Option.map_eq_some_iff.mp split
    cases equal
    simp [splitAtClose?, ih found]
  | case3 ps differs =>
    cases split
    simp [splitAtClose?, differs]
  | case4 ps depth differs ih =>
    obtain ⟨later, found, equal⟩ := Option.map_eq_some_iff.mp split
    cases equal
    simp [splitAtClose?, differs, ih found]
  | case5 depth c ps noOpening noClosing ih =>
    obtain ⟨later, found, equal⟩ := Option.map_eq_some_iff.mp split
    cases equal
    simp [splitAtClose?, noOpening, noClosing, ih found]
  | case6 depth p ps region ih =>
    obtain ⟨later, found, equal⟩ := Option.map_eq_some_iff.mp split
    cases equal
    rw [List.cons_append, splitAtClose?, ih found]
    · rfl
    · exact region

namespace Relaid

open FormatCall

/-- What follows a literal is the arguments of a call in both layouts. -/
theorem exists_argumentsAfter? (relaid : Relaid ps qs) {percent : Text} {inside : List Piece}
    (opened : argumentsAfter? ps = some (percent, inside)) :
    ∃ percent' inside', argumentsAfter? qs = some (percent', inside') ∧ Relaid inside inside' := by
  obtain ⟨rest, sign, parenthesis⟩ := argumentsAfter?_iff.mp ⟨percent, opened⟩
  obtain ⟨rest', sign', relaid⟩ := relaid.exists_signBehind (.inl rfl) sign
  obtain ⟨inside', parenthesis', relaid⟩ := relaid.exists_signBehind (.inr rfl) parenthesis
  obtain ⟨percent', opened'⟩ := argumentsAfter?_iff.mpr ⟨rest', sign', parenthesis'⟩
  exact ⟨percent', inside', opened', relaid⟩

private theorem argumentsAfter?_eq_none (relaid : Relaid ps qs)
    (unopened : argumentsAfter? ps = none) :
    argumentsAfter? qs = none := by
  by_contra opened
  obtain ⟨⟨percent, inside⟩, opened⟩ := Option.ne_none_iff_exists'.mp opened
  obtain ⟨percent', inside', opened', -⟩ := relaid.symm.exists_argumentsAfter? opened
  rw [unopened] at opened'
  cases opened'

/-- The first call of one layout is the first one of the other: the same literal stands behind
pieces that are the same but for their layout, whatever follows it. -/
theorem exists_find? (relaid : Relaid ps qs) {call : FormatCall} (found : find? ps = some call) :
    ∃ call' before before' body, find? qs = some call' ∧ call.StandsBehind ps before body ∧
      call'.StandsBehind qs before' body ∧ Relaid call.rest call'.rest ∧
      ∀ {xs ys : List Piece}, Relaid xs ys →
        Relaid (before ++ .region .string body true :: xs)
          (before' ++ .region .string body true :: ys) := by
  induction relaid generalizing call with
  | @trailing blanks _ _ _ =>
    rw [← List.append_nil (blanks.map Piece.code), find?_map_code_append] at found
    cases found
  | @piece p ps qs later ih =>
    by_cases opens : ∃ body percent rest, p = .region .string body true ∧
      argumentsAfter? ps = some (percent, rest)
    · obtain ⟨body, percent, rest, rfl, opened⟩ := opens
      obtain ⟨percent', rest', opened', relaid⟩ := later.exists_argumentsAfter? opened
      rw [find?_cons_of_arguments body opened] at found
      cases found
      obtain ⟨middle, sign, parenthesis⟩ := argumentsAfter?_iff.mp ⟨percent, opened⟩
      obtain ⟨middle', sign', parenthesis'⟩ := argumentsAfter?_iff.mp ⟨percent', opened'⟩
      exact ⟨⟨body, percent', rest'⟩, [], [], body, find?_cons_of_arguments body opened',
        ⟨rfl, ps, middle, rfl, sign, parenthesis⟩, ⟨rfl, qs, middle', rfl, sign', parenthesis'⟩,
        relaid, fun relaid => .piece _ relaid⟩
    · have unopened : ∀ body, p = .region .string body true → argumentsAfter? ps = none := by
        intro body literal
        by_contra opened
        obtain ⟨⟨percent, inside⟩, opened⟩ := Option.ne_none_iff_exists'.mp opened
        exact opens ⟨body, percent, inside, literal, opened⟩
      rw [find?_cons_of_not unopened] at found
      obtain ⟨call, first, rfl⟩ := Option.map_eq_some_iff.mp found
      obtain ⟨call', before, before', body, found', stands, stands', relaid, grow⟩ := ih first
      refine ⟨{ call' with literal := p.text ++ call'.literal }, p :: before, p :: before', body,
        ?_, by simpa using stands.prepend [p], by simpa using stands'.prepend [p], relaid,
        fun relaid => .piece p (grow relaid)⟩
      rw [find?_cons_of_not fun body literal =>
        later.argumentsAfter?_eq_none (unopened body literal), found']
      rfl
  | @breaks blanks blanks' blank blank' feed feed' ps qs plain later ih =>
    rw [find?_map_code_append] at found
    obtain ⟨call, first, rfl⟩ := Option.map_eq_some_iff.mp found
    obtain ⟨call', before, before', body, found', stands, stands', relaid, grow⟩ := ih first
    refine ⟨{ call' with literal := blanks' ++ call'.literal }, blanks.map .code ++ before,
      blanks'.map .code ++ before', body, ?_,
      by simpa [spell_map_code] using stands.prepend (blanks.map .code),
      by simpa [spell_map_code] using stands'.prepend (blanks'.map .code), relaid,
      fun {xs ys} relaid => ?_⟩
    · rw [find?_map_code_append, found']
      rfl
    · rw [List.append_assoc, List.append_assoc]
      refine .breaks blank blank' feed feed' (plain.imp_right fun unsigned => ?_) (grow relaid)
      rintro ⟨sign, rest, isSign, signed⟩
      obtain ⟨-, behind, -, rfl, -⟩ := stands
      obtain ⟨rest', signed'⟩ := signBehind_append_region signed behind
      exact unsigned ⟨sign, rest', isSign, signed'⟩

end Relaid

/-- Pieces that are the same but for their layout, blanks at the beginning included. -/
def RelaidFrom (ps qs : List Piece) : Prop :=
  ∃ (blanks blanks' : Text) (rest rest' : List Piece), (∀ c ∈ blanks, Text.isBlank c = true) ∧
    (∀ c ∈ blanks', Text.isBlank c = true) ∧ ps = blanks.map .code ++ rest ∧
      qs = blanks'.map .code ++ rest' ∧ Relaid rest rest'

namespace RelaidFrom

open FormatCall

private theorem symm (relaid : RelaidFrom ps qs) : RelaidFrom qs ps := by
  obtain ⟨blanks, blanks', rest, rest', blank, blank', read, read', relaid⟩ := relaid
  exact ⟨blanks', blanks, rest', rest, blank', blank, read', read, relaid.symm⟩

private theorem exists_find? (relaid : RelaidFrom ps qs) {call : FormatCall}
    (found : find? ps = some call) :
    ∃ call' before before' body, find? qs = some call' ∧ call.StandsBehind ps before body ∧
      call'.StandsBehind qs before' body ∧ Relaid call.rest call'.rest ∧
      ∀ {xs ys : List Piece}, Relaid xs ys →
        RelaidFrom (before ++ .region .string body true :: xs)
          (before' ++ .region .string body true :: ys) := by
  obtain ⟨blanks, blanks', rest, rest', blank, blank', rfl, rfl, relaid⟩ := relaid
  rw [find?_map_code_append] at found
  obtain ⟨call, first, rfl⟩ := Option.map_eq_some_iff.mp found
  obtain ⟨call', before, before', body, found', stands, stands', relaid, grow⟩ :=
    relaid.exists_find? first
  refine ⟨{ call' with literal := blanks' ++ call'.literal }, blanks.map .code ++ before,
    blanks'.map .code ++ before', body, ?_,
    by simpa [spell_map_code] using stands.prepend (blanks.map .code),
    by simpa [spell_map_code] using stands'.prepend (blanks'.map .code), relaid,
    fun relaid => ⟨blanks, blanks', _, _, blank, blank', List.append_assoc _ _ _,
      List.append_assoc _ _ _, grow relaid⟩⟩
  rw [find?_map_code_append, found']
  rfl

end RelaidFrom

/-! ### Expansion -/

namespace RelaidFrom

variable {t u : Text}

/-- The first calls of both texts are expanded alike. -/
theorem exists_expandFirst (relaid : RelaidFrom t.pieces u.pieces) (lined : t.Lined)
    (lined' : u.Lined) {next : Text} (expanded : t.expandFirst = .ok (some next)) :
    ∃ next', u.expandFirst = .ok (some next') ∧ RelaidFrom next.pieces next'.pieces := by
  unfold Text.expandFirst at expanded ⊢
  cases found : FormatCall.find? t.pieces with
  | none =>
    rw [found] at expanded
    cases expanded
  | some call =>
    rw [found] at expanded
    dsimp only at expanded
    cases split : splitAtClose? '(' ')' 0 call.rest with
    | none =>
      rw [split] at expanded
      cases expanded
    | some parts =>
      obtain ⟨inside, after⟩ := parts
      rw [split] at expanded
      cases expanded
      obtain ⟨call', before, before', body, found', stands, stands', relaid, grow⟩ :=
        relaid.exists_find? found
      obtain ⟨site, rfl, rfl, rfl, rfl⟩ := stands.exists_site split
      obtain ⟨-, -, inLine, -⟩ := lined.depths_of_site site
      -- the arguments stand on one line, so the other call has the same ones
      have noFeed : .code '\n' ∉ site.inside := fun feed =>
        inLine (by obtain ⟨front, back, whole⟩ := List.append_of_mem feed; simp [whole])
      rw [(eq_of_splitAtClose? split).1] at relaid
      obtain ⟨after', rest_eq, relaid⟩ := relaid.exists_append (by decide) noFeed
      have split' : splitAtClose? '(' ')' 0 call'.rest = some (site.inside, after') := by
        rw [rest_eq]
        exact splitAtClose?_of_inside split after'
      obtain ⟨site', before_eq, body_eq, inside_eq, rfl⟩ := stands'.exists_site split'
      rw [found']
      dsimp only
      rw [split']
      refine ⟨_, rfl, ?_⟩
      have spelled : call'.literal ++ (FormatCall.arguments site.inside).flatMap
            FormatCall.substitution ++ spell site'.after =
          spell site'.before ++ site'.body ++ (FormatCall.arguments site'.inside).flatMap
            FormatCall.substitution ++ spell site'.after := by
        rw [stands'.literal, before_eq, body_eq, inside_eq]
      have read := lined'.pieces_expanded site' spelled
      rw [FormatCall.Site.expanded, before_eq, body_eq, inside_eq] at read
      rw [read, lined.pieces_expanded site (by rw [stands.literal])]
      exact grow (relaid.append _)

/-- Both texts are expanded alike. -/
theorem exists_expandAll (relaid : RelaidFrom t.pieces u.pieces) (lined : t.Lined)
    (lined' : u.Lined) {r : Text} (expanded : t.expandAll = .ok r) :
    ∃ r', u.expandAll = .ok r' ∧ RelaidFrom r.pieces r'.pieces := by
  induction expanded using Text.expandAll_induction generalizing u with
  | done t done =>
    refine ⟨u, Text.expandAll_of_done ?_, relaid⟩
    obtain ⟨result, expanded⟩ := lined'.exists_expandFirst
    cases result with
    | none => exact expanded
    | some next =>
      obtain ⟨next', expanded', -⟩ := relaid.symm.exists_expandFirst lined' lined expanded
      rw [done] at expanded'
      cases expanded'
  | step t next r expanded rest ih =>
    obtain ⟨next', expanded', relaid⟩ := relaid.exists_expandFirst lined lined' expanded
    obtain ⟨r', rest', relaid⟩ :=
      ih relaid (lined.of_expandFirst expanded) (lined'.of_expandFirst expanded')
    exact ⟨r', (Text.expandAll_of_step expanded').trans rest', relaid⟩

end RelaidFrom

/-! ### Lines -/

namespace Text

/-- A text without the characters of a class at both ends. -/
def between (strip : Char → Bool) (t : Text) : Text :=
  dropEndWhile strip (t.dropWhile strip)

/-- The lines of a text without the characters of a class at both ends, as far as something is left
of them. -/
def linesBetween (strip : Char → Bool) (t : Text) : List Text :=
  ((t.splitOn '\n').map (between strip)).filter (· ≠ [])

private theorem linesBetween_nil (strip : Char → Bool) : linesBetween strip [] = [] :=
  rfl

private theorem linesBetween_append_lineFeed (strip : Char → Bool) (s t : Text) :
    linesBetween strip (s ++ '\n' :: t) = linesBetween strip s ++ linesBetween strip t := by
  rw [linesBetween, List.splitOn_append_cons_self, List.map_append, List.filter_append]
  rfl

private theorem linesBetween_of_not_mem (strip : Char → Bool) {line : Text} (inLine : '\n' ∉ line) :
    linesBetween strip line = [between strip line].filter (· ≠ []) := by
  rw [linesBetween, List.splitOn_eq_singleton inLine]
  rfl

private theorem linesBetween_blanks_append {blanks : Text} (blank : ∀ c ∈ blanks, isBlank c = true)
    (t : Text) : linesBetween isBlank (blanks ++ t) = linesBetween isBlank t := by
  induction blanks with
  | nil => rfl
  | cons c blanks ih =>
    obtain ⟨first, later⟩ := List.forall_mem_cons.mp blank
    rw [List.cons_append, ← ih later]
    by_cases feed : c = '\n'
    · have parted := linesBetween_append_lineFeed isBlank [] (blanks ++ t)
      rwa [linesBetween_nil, List.nil_append, List.nil_append, ← feed] at parted
    · rw [linesBetween, linesBetween, List.splitOn_cons_eq_if_modifyHead,
        if_neg (by simpa using feed)]
      cases (blanks ++ t).splitOn '\n' with
      | nil => rfl
      | cons line lines => simp [between, List.dropWhile_cons_of_pos first]

private theorem linesBetween_append_blanks (t : Text) {blanks : Text}
    (blank : ∀ c ∈ blanks, isBlank c = true) :
    linesBetween isBlank (t ++ blanks) = linesBetween isBlank t := by
  induction blanks using List.reverseRecOn with
  | nil => rw [List.append_nil]
  | append_singleton blanks c ih =>
    have last : isBlank c = true := blank c (by simp)
    rw [← ih fun d member => blank d (List.mem_append_left _ member), ← List.append_assoc]
    generalize t ++ blanks = s
    by_cases feed : c = '\n'
    · rw [feed, linesBetween_append_lineFeed, linesBetween_nil, List.append_nil]
    · have parts : (s ++ [c]).splitOn '\n' = s.fullLines ++ [s.lastLine ++ [c]] := by
        rw [splitOn_append]
        have single : '\n' ∉ [c] := by simpa using Ne.symm feed
        rw [List.splitOn_eq_singleton single]
        simp [feed]
      have same : trim (s.lastLine ++ [c]) = trim s.lastLine := trim_concat_blank _ last
      rw [linesBetween, linesBetween, parts, splitOn_eq_concat s, List.map_append, List.map_append]
      exact congrArg (fun line => (_ ++ [line]).filter _) same

/-- Blanks with a line feed part the lines before and behind. -/
theorem linesBetween_append_append (s : Text) {blanks : Text}
    (blank : ∀ c ∈ blanks, isBlank c = true) (feed : '\n' ∈ blanks) (t : Text) :
    linesBetween isBlank (s ++ (blanks ++ t)) =
      linesBetween isBlank s ++ linesBetween isBlank t := by
  obtain ⟨front, back, rfl⟩ := List.append_of_mem feed
  have blanks' := List.forall_mem_append.mp blank
  have whole : s ++ (front ++ '\n' :: back ++ t) = (s ++ front) ++ '\n' :: (back ++ t) := by simp
  rw [whole, linesBetween_append_lineFeed, linesBetween_append_blanks s blanks'.1,
    linesBetween_blanks_append (List.forall_mem_cons.mp blanks'.2).2]

end Text

private theorem Relaid.linesBetween_eq (relaid : Relaid ps qs) (s : Text) :
    Text.linesBetween Text.isBlank (s ++ spell ps) =
      Text.linesBetween Text.isBlank (s ++ spell qs) := by
  induction relaid generalizing s with
  | trailing blank blank' =>
    rw [spell_map_code, spell_map_code, Text.linesBetween_append_blanks s blank,
      Text.linesBetween_append_blanks s blank']
  | piece p later ih =>
    rw [spell_cons, spell_cons, ← List.append_assoc, ← List.append_assoc]
    exact ih _
  | breaks blank blank' feed feed' plain later ih =>
    rw [spell_append, spell_append, spell_map_code, spell_map_code,
      Text.linesBetween_append_append s blank feed, Text.linesBetween_append_append s blank' feed']
    exact congrArg _ (ih [])

private theorem RelaidFrom.linesBetween_eq {t u : Text} (relaid : RelaidFrom t.pieces u.pieces) :
    t.linesBetween Text.isBlank = u.linesBetween Text.isBlank := by
  obtain ⟨blanks, blanks', rest, rest', blank, blank', read, read', relaid⟩ := relaid
  have same := relaid.linesBetween_eq []
  rw [← Text.spell_pieces t, ← Text.spell_pieces u, read, read', spell_append, spell_append,
    spell_map_code, spell_map_code, Text.linesBetween_blanks_append blank,
    Text.linesBetween_blanks_append blank']
  exact same

/-- The lines of code of a text without comments. -/
theorem Script.map_snd_codeLines_eq {t : Text} (free : t.CommentFree) :
    (Script.codeLines t).map (·.2) = t.linesBetween Text.isBlank := by
  have gathered : ∀ ls : List Text, (ls.map Text.trim).filter (· ≠ []) =
      ls.flatMap fun line => [line.trim].filter (· ≠ []) := by
    intro ls
    induction ls with
    | nil => rfl
    | cons line ls ih => rw [List.map_cons, List.flatMap_cons, ← ih, ← List.filter_append]; rfl
  rw [Script.map_snd_codeLines, free.withoutComments_eq, gathered,
    Text.flatMap_lines rfl (fun line => by rw [Text.trim_dropReturn]), ← gathered]
  rfl

/-! ### The program -/

namespace Script

/-- The numbers of lines matter for problems only. -/
theorem Takes.renumber {lines lines' rest : List (Nat × Text)} {items : List Item}
    (takes : Takes lines items rest) (same : lines.map (·.2) = lines'.map (·.2)) :
    ∃ rest', Takes lines' items rest' ∧ rest.map (·.2) = rest'.map (·.2) := by
  cases lines' with
  | nil => cases takes <;> cases same
  | cons first lines' =>
    obtain ⟨n, line⟩ := first
    cases takes with
    | importLine starts =>
      obtain ⟨rfl, later⟩ := List.cons.inj same
      exact ⟨lines', .importLine starts, later⟩
    | globalLine starts =>
      obtain ⟨rfl, later⟩ := List.cons.inj same
      exact ⟨lines', .globalLine starts, later⟩
    | @function _ _ block _ _ starts cut =>
      obtain ⟨rfl, later⟩ := List.cons.inj same
      rw [later] at cut
      refine ⟨lines'.drop (block.count '\n'), .function starts cut, ?_⟩
      rw [List.map_drop, List.map_drop, later]
    | statement noImport noGlobal noFunction =>
      obtain ⟨rfl, later⟩ := List.cons.inj same
      exact ⟨lines', .statement noImport noGlobal noFunction, later⟩

private theorem Taken.renumber {lines lines' : List (Nat × Text)} {items : List Item}
    (taken : Taken lines items) (same : lines.map (·.2) = lines'.map (·.2)) :
    Taken lines' items := by
  induction taken generalizing lines' with
  | nil =>
    obtain rfl : lines' = [] := List.map_eq_nil_iff.mp same.symm
    exact .nil
  | step takes later ih =>
    obtain ⟨rest', takes', same⟩ := takes.renumber same
    exact .step takes' (ih same)

private theorem ofText_eq_ok_of_codeLines {t u : Text} {catalog : Catalog} {script : Script}
    (same : (codeLines t).map (·.2) = (codeLines u).map (·.2))
    (taken : ofText t catalog = .ok script) : ofText u catalog = .ok script := by
  obtain ⟨items, items_eq, rfl⟩ := exists_of_ofText taken
  have read : itemsOfLines (codeLines u) = .ok items :=
    itemsOfLines_eq_ok_iff.mpr (items_eq.renumber same)
  rw [ofText, read]
  rfl

end Script

namespace Record

/-- The script that structs are taken for matters for problems only. -/
theorem extractFirst_eq_ok {text source : Text} {found : Option Extraction}
    (extracted : extractFirst text source = .ok found) (source' : Text) :
    extractFirst text source' = .ok found := by
  unfold extractFirst at extracted ⊢
  split at extracted
  · exact extracted
  · dsimp only at extracted ⊢
    split at extracted
    · cases extracted
    · next named =>
      rw [if_neg named]
      split at extracted
      · split at extracted
        · cases extracted
        · exact extracted
      · cases extracted

private theorem extractAll_eq_ok {className source text : Text} {records : List Record}
    {taken : List Record × Text}
    (extracted : extractAll className source records text = .ok taken) (source' : Text) :
    extractAll className source' records text = .ok taken := by
  fun_induction extractAll className source records text with
  | case1 => cases extracted
  | case2 records text first =>
    rw [← extracted]
    exact extractAll_of_none (extractFirst_eq_ok first source')
  | case3 => cases extracted
  | case4 => cases extracted
  | case5 records text found first name fresh other ih =>
    rw [extractAll_of_extractFirst (extractFirst_eq_ok first source'), if_neg fresh, if_neg other]
    exact ih extracted

end Record

private theorem extractFromSlots_eq_ok {className source : Text} {records taken : List Record}
    {unit : SourceUnit} {slots : List Slot}
    (extracted : (extractFromSlots className source records unit slots).1 = .ok taken)
    (source' : Text) :
    extractFromSlots className source' records unit slots =
      extractFromSlots className source records unit slots := by
  induction slots generalizing records unit with
  | nil => rfl
  | cons slot slots ih =>
    rw [extractFromSlots] at extracted ⊢
    rw [extractFromSlots]
    split at extracted
    · cases extracted
    · next first =>
      rw [Record.extractAll_eq_ok first source']
      exact ih extracted

/-! ### The lines of a text among its pieces -/

/-- Some lines make up pieces with characters of a class and line feeds around them; only the first
line may stand at the front without a line feed before it. -/
def Spreads (strip : Char → Bool) : Bool → List (List Piece) → List Piece → Prop
  | _, [], ps => ∃ gap : Text, (∀ c ∈ gap, strip c = true ∨ c = '\n') ∧ ps = gap.map .code
  | atStart, line :: lines, ps =>
    ∃ (gap : Text) (rest : List Piece), (∀ c ∈ gap, strip c = true ∨ c = '\n') ∧
      (atStart = true ∨ '\n' ∈ gap) ∧ ps = gap.map .code ++ (line ++ rest) ∧
        Spreads strip false lines rest

namespace Spreads

variable {strip : Char → Bool} {lines : List (List Piece)}

private theorem prepend (spreads : Spreads strip true lines ps) {gap : Text} (atStart : Bool)
    (stripped : ∀ c ∈ gap, strip c = true ∨ c = '\n') (feed : atStart = true ∨ '\n' ∈ gap) :
    Spreads strip atStart lines (gap.map .code ++ ps) := by
  cases lines with
  | nil =>
    obtain ⟨gap', stripped', rfl⟩ := spreads
    exact ⟨gap ++ gap', List.forall_mem_append.mpr ⟨stripped, stripped'⟩, by simp⟩
  | cons line lines =>
    obtain ⟨gap', rest, stripped', -, rfl, later⟩ := spreads
    exact ⟨gap ++ gap', rest, List.forall_mem_append.mpr ⟨stripped, stripped'⟩,
      feed.imp_right (List.mem_append_left _), by simp, later⟩

variable (blank : ∀ c, strip c = true → Text.isBlank c = true)

include blank

private theorem isBlank {gap : Text} (stripped : ∀ c ∈ gap, strip c = true ∨ c = '\n') :
    ∀ c ∈ gap, Text.isBlank c = true := by
  intro c member
  rcases stripped c member with inClass | rfl
  · exact blank c inClass
  · decide

variable (plain : (∀ c, strip c = true → Text.isGap c = true) ∨
  ∀ line ∈ lines, ∀ rest, ¬ContinuesBehind (line ++ rest))

include plain

/-- The same lines with other blanks around them. -/
theorem relaid (spreads : Spreads strip false lines ps) (spreads' : Spreads strip false lines qs) :
    Relaid ps qs := by
  induction lines generalizing ps qs with
  | nil =>
    obtain ⟨gap, stripped, rfl⟩ := spreads
    obtain ⟨gap', stripped', rfl⟩ := spreads'
    exact .trailing (isBlank blank stripped) (isBlank blank stripped')
  | cons line lines ih =>
    obtain ⟨gap, rest, stripped, feed, rfl, later⟩ := spreads
    obtain ⟨gap', rest', stripped', feed', rfl, later'⟩ := spreads'
    have gaps : (∀ c, strip c = true → Text.isGap c = true) → ∀ {gap : Text},
        (∀ c ∈ gap, strip c = true ∨ c = '\n') → ∀ c ∈ gap, Text.isGap c = true := by
      intro narrow gap stripped c member
      rcases stripped c member with inClass | rfl
      · exact narrow c inClass
      · decide
    refine .breaks (isBlank blank stripped) (isBlank blank stripped')
      (feed.resolve_left (by simp)) (feed'.resolve_left (by simp))
      (plain.imp (fun narrow => ⟨gaps narrow stripped, gaps narrow stripped'⟩)
        fun unsigned => unsigned line List.mem_cons_self rest)
      (.append line (ih (plain.imp_right fun unsigned => ?_) later later'))
    exact fun other member => unsigned other (List.mem_cons_of_mem _ member)

private theorem relaidFrom (spreads : Spreads strip true lines ps)
    (spreads' : Spreads strip true lines qs) :
    RelaidFrom ps qs := by
  cases lines with
  | nil =>
    obtain ⟨gap, stripped, rfl⟩ := spreads
    obtain ⟨gap', stripped', rfl⟩ := spreads'
    have nothing : Relaid (([] : Text).map .code) (([] : Text).map .code) :=
      .trailing (by simp) (by simp)
    exact ⟨gap, gap', [], [], isBlank blank stripped, isBlank blank stripped', by simp, by simp,
      nothing⟩
  | cons line lines =>
    obtain ⟨gap, rest, stripped, -, rfl, later⟩ := spreads
    obtain ⟨gap', rest', stripped', -, rfl, later'⟩ := spreads'
    have further := plain.imp_right fun unsigned other member =>
      unsigned other (List.mem_cons_of_mem line member)
    exact ⟨gap, gap', line ++ rest, line ++ rest', isBlank blank stripped, isBlank blank stripped',
      rfl, rfl, .append line (relaid blank further later later')⟩

end Spreads

namespace Text

variable {strip : Char → Bool}

private theorem exists_eq_append_between (strip : Char → Bool) (t : Text) :
    ∃ before after : Text, t = before ++ (between strip t ++ after) ∧
      (∀ c ∈ before, strip c = true) ∧ ∀ c ∈ after, strip c = true := by
  refine ⟨t.takeWhile strip, (t.dropWhile strip).rtakeWhile strip, ?_,
    fun c => List.mem_takeWhile_imp, fun c => List.mem_rtakeWhile_imp⟩
  have ending : between strip t ++ (t.dropWhile strip).rtakeWhile strip = t.dropWhile strip :=
    List.rdropWhile_append_rtakeWhile
  rw [ending]
  exact List.takeWhile_append_dropWhile.symm

/-- A blank behind a text without comments whose literals are closed is code. -/
theorem pieces_concat_of_isClosed {t : Text} {c : Char} (blank : isBlank c = true)
    (free : (t ++ [c]).CommentFree) (closed : ∀ p ∈ (t ++ [c]).pieces, p.isClosed = true) :
    (t ++ [c]).pieces = t.pieces ++ [.code c] := by
  rcases pieces_concat_blank t blank with read | ⟨before, kind, body, isClosed, -, read⟩
  · exact read
  · have member : .region kind (body ++ [c]) isClosed ∈ (t ++ [c]).pieces := by simp [read]
    have formed := (scanned_pieces (t ++ [c])).wellFormed _ member
    have whole : (Piece.region kind (body ++ [c]) isClosed).isWhole = true := by
      have noComment := free _ member
      have ends := closed _ member
      cases kind <;> simp_all [Piece.isWhole, Piece.endsWithLine, Piece.endsWithText,
        Piece.isComment, Piece.isClosed]
    obtain ⟨last, ends, visible⟩ := formed.isBlank_getLast whole
    rw [List.getLast?_concat] at ends
    cases ends
    rw [blank] at visible
    cases visible

private theorem pieces_append_of_isClosed (t : Text) {blanks : Text}
    (blank : ∀ c ∈ blanks, isBlank c = true) (free : (t ++ blanks).CommentFree)
    (closed : ∀ p ∈ (t ++ blanks).pieces, p.isClosed = true) :
    (t ++ blanks).pieces = t.pieces ++ blanks.map .code := by
  induction blanks using List.reverseRecOn with
  | nil => simp
  | append_singleton blanks c ih =>
    rw [← List.append_assoc] at free closed ⊢
    have read := pieces_concat_of_isClosed (blank c (by simp)) free closed
    unfold CommentFree at free ih
    rw [read] at free closed
    rw [read, ih (fun d member => blank d (List.mem_append_left _ member))
      (fun p member => free p (List.mem_append_left _ member))
      (fun p member => closed p (List.mem_append_left _ member))]
    simp

private theorem exists_pieces_between (blank : ∀ c, strip c = true → isBlank c = true) {t : Text}
    (free : t.CommentFree) (closed : ∀ p ∈ t.pieces, p.isClosed = true) :
    ∃ before after : Text, t.pieces = before.map .code ++ ((between strip t).pieces ++
      after.map .code) ∧ (∀ c ∈ before, strip c = true) ∧ ∀ c ∈ after, strip c = true := by
  obtain ⟨before, after, whole, stripped, stripped'⟩ := exists_eq_append_between strip t
  have read : t.pieces = before.map .code ++ (between strip t ++ after).pieces := by
    conv_lhs => rw [whole]
    exact pieces_plain_append (fun c member => isPlain_of_isBlank (blank c (stripped c member))) _
  unfold CommentFree at free
  rw [read] at free closed
  refine ⟨before, after, ?_, stripped, stripped'⟩
  rw [read, pieces_append_of_isClosed _ (fun c member => blank c (stripped' c member))
    (fun p member => free p (List.mem_append_right _ member))
    fun p member => closed p (List.mem_append_right _ member)]

/-- A line, as far as something is left of it, comes before the lines that make up what follows. -/
theorem spreads_line (blank : ∀ c, strip c = true → isBlank c = true) {line : Text}
    (free : line.CommentFree) (closed : ∀ p ∈ line.pieces, p.isClosed = true)
    {lines : List (List Piece)}
    (later : ∀ (gap : Text) (atStart : Bool), (∀ c ∈ gap, strip c = true) →
      Spreads strip atStart lines (gap.map .code ++ ps)) :
    Spreads strip true (([between strip line].filter (· ≠ [])).map pieces ++ lines)
      (line.pieces ++ ps) := by
  obtain ⟨before, after, read, stripped, stripped'⟩ := exists_pieces_between blank free closed
  rw [read]
  by_cases empty : between strip line = []
  · have joined := later (before ++ after) true
      (List.forall_mem_append.mpr ⟨stripped, stripped'⟩)
    simpa [empty, pieces_nil] using joined
  · rw [List.filter_cons_of_pos (by simpa using empty), List.filter_nil, List.map_singleton,
      List.singleton_append]
    refine ⟨before, after.map .code ++ ps, fun c member => .inl (stripped c member), .inl rfl, ?_,
      later after false stripped'⟩
    simp

/-- A text without comments whose literals are closed is made up of its lines. -/
theorem spreads_linesBetween (blank : ∀ c, strip c = true → isBlank c = true) {t : Text}
    (free : t.CommentFree) (closed : ∀ p ∈ t.pieces, p.isClosed = true) :
    Spreads strip true ((t.linesBetween strip).map pieces) t.pieces := by
  induction t using line_induction with
  | last line inLine =>
    have nothing : ∀ (gap : Text) (atStart : Bool), (∀ c ∈ gap, strip c = true) →
        Spreads strip atStart [] (gap.map .code ++ []) := fun gap _ stripped =>
      ⟨gap, fun c member => .inl (stripped c member), List.append_nil _⟩
    simpa [linesBetween_of_not_mem strip inLine] using spreads_line blank free closed nothing
  | more line t inLine ih =>
    obtain ⟨freeLine, freeRest⟩ := free.of_line_append inLine
    have read := pieces_line_append inLine free
    rw [read] at closed ⊢
    obtain ⟨closedLine, closedRest⟩ := List.forall_mem_append.mp closed
    rw [linesBetween_append_lineFeed, List.map_append, linesBetween_of_not_mem strip inLine]
    refine spreads_line blank freeLine closedLine fun gap atStart stripped => ?_
    have stripped' : ∀ c ∈ gap ++ ['\n'], strip c = true ∨ c = '\n' :=
      List.forall_mem_append.mpr ⟨fun c member => .inl (stripped c member), by simp⟩
    have spreads := (ih freeRest (List.forall_mem_cons.mp closedRest).2).prepend atStart stripped'
      (.inr (by simp))
    simpa using spreads

end Text

namespace Program

variable {t u : Text} {catalog : Catalog} {strip : Char → Bool}

/-- Behind a line that does not go on with a call there is no sign of one. -/
theorem not_continuesBehind {line : Text} (visible : line.trim ≠ [])
    (unbroken : ¬line.ContinuesCall) (rest : List Piece) :
    ¬ContinuesBehind (line.trim.pieces ++ rest) := by
  rintro ⟨sign, behind, isSign, found⟩
  have spelled := Text.spell_pieces line.trim
  cases read : line.trim.pieces with
  | nil =>
    rw [read] at spelled
    exact visible spelled.symm
  | cons p ps =>
    rw [read] at spelled found
    rcases signBehind_cons.mp found with ⟨rfl, -⟩ | ⟨c, rfl, gap, -⟩
    · refine unbroken (isSign.imp ?_ ?_) <;> rintro rfl <;> rw [← spelled] <;> rfl
    · have first := List.head?_dropWhile_not Text.isBlank line.trim
      have trimmed : line.trim.dropWhile Text.isBlank = line.trim := Text.trimStart_trim line
      rw [trimmed, ← spelled] at first
      exact absurd (Text.isBlank_of_isGap gap) (Bool.eq_false_iff.mp first)

private theorem relaidFrom_of_linesBetween (settled : t.Settled) (settled' : u.Settled)
    (free : t.CommentFree) (free' : u.CommentFree)
    (same : t.linesBetween strip = u.linesBetween strip)
    (plain : (∀ c, strip c = true → Text.isGap c = true) ∨ strip = Text.isBlank ∧ t.Unbroken) :
    RelaidFrom t.pieces u.pieces := by
  have blank : ∀ c, strip c = true → Text.isBlank c = true := by
    rcases plain with narrow | ⟨rfl, -⟩
    · exact fun c inClass => Text.isBlank_of_isGap (narrow c inClass)
    · exact fun c => id
  have spreads := Text.spreads_linesBetween blank free settled.closed
  have spreads' := Text.spreads_linesBetween blank free' settled'.closed
  rw [← same] at spreads'
  refine Spreads.relaidFrom blank (plain.imp_right ?_) spreads spreads'
  rintro ⟨rfl, unbroken⟩ pieces member rest
  obtain ⟨line, listed, rfl⟩ := List.mem_map.mp member
  obtain ⟨found, nonempty⟩ := List.mem_filter.mp listed
  obtain ⟨own, inText, rfl⟩ := List.mem_map.mp found
  rw [Text.Unbroken, free.withoutComments_eq] at unbroken
  exact not_continuesBehind (of_decide_eq_true nonempty) (unbroken own inText) rest

private theorem expandAll_commentFree (settled : t.Settled) (free : t.CommentFree) {r : Text}
    (expanded : t.expandAll = .ok r) : r.CommentFree := by
  have step : ∀ {s next : Text}, s.Settled ∧ s.CommentFree → s.expandFirst = .ok (some next) →
      next.Settled ∧ next.CommentFree := fun ⟨settled, free⟩ expanded =>
    ⟨settled.of_expandFirst expanded, free.of_expandFirst settled expanded⟩
  exact (Text.of_expandAll step ⟨settled, free⟩ expanded).1.2

private theorem ofSound_eq_ok (relaid : RelaidFrom t.pieces u.pieces) (settled : t.Settled)
    (settled' : u.Settled) (free : t.CommentFree) (free' : u.CommentFree) {className : Text}
    {program : Program} (made : ofSound t className catalog = .ok program) :
    ofSound u className catalog = .ok program := by
  unfold ofSound at made ⊢
  obtain ⟨r, expanded, made⟩ := exists_of_bind_eq_ok made
  obtain ⟨script, taken, made⟩ := exists_of_bind_eq_ok made
  obtain ⟨records, extracted, made⟩ := exists_of_bind_eq_ok made
  cases made
  obtain ⟨r', expanded', relaid⟩ :=
    relaid.exists_expandAll settled.toLined settled'.toLined expanded
  have lines : (Script.codeLines r).map (·.2) = (Script.codeLines r').map (·.2) := by
    rw [Script.map_snd_codeLines_eq (expandAll_commentFree settled free expanded),
      Script.map_snd_codeLines_eq (expandAll_commentFree settled' free' expanded'),
      relaid.linesBetween_eq]
  have taken' := Script.ofText_eq_ok_of_codeLines lines taken
  have extracted' : (takeRecords (script.compose className catalog).unit className t).1 =
      .ok records := extracted
  have records' : takeRecords (script.compose className catalog).unit className u =
      takeRecords (script.compose className catalog).unit className t :=
    extractFromSlots_eq_ok extracted' u
  simp only [bind, Except.bind, expanded', taken', records', extracted']
  rfl

private theorem ofScript_eq_ok_iff (sound : (problemsIn t catalog).isEmpty = true) {fileName : Path}
    {program : Program} :
    ofScript t fileName catalog = .ok program ↔
      ofSound t fileName.className catalog = .ok program := by
  rw [ofScript, if_pos sound]
  cases ofSound t fileName.className catalog with
  | error problem => constructor <;> intro made <;> cases made
  | ok other => constructor <;> intro made <;> cases made <;> rfl

/-- Two scripts without comments and problems give the same program, or none of them gives one, if
they have the same lines apart from spaces, tabs and other gaps at both ends of lines, and lines of
nothing else. If no line goes on with a format call, this holds for all blanks. -/
theorem ofScript_eq_ok_iff_of_linesBetween (fileName : Path) (strip : Char → Bool)
    (free : t.withoutComments = t) (free' : u.withoutComments = u)
    (sound : (problemsIn t catalog).isEmpty = true) (sound' : (problemsIn u catalog).isEmpty = true)
    (same : t.linesBetween strip = u.linesBetween strip)
    (plain : (∀ c, strip c = true → Text.isGap c = true) ∨ strip = Text.isBlank ∧ t.Unbroken)
    (program : Program) :
    ofScript t fileName catalog = .ok program ↔ ofScript u fileName catalog = .ok program := by
  have commentFree : t.CommentFree := free ▸ Text.commentFree_withoutComments t
  have commentFree' : u.CommentFree := free' ▸ Text.commentFree_withoutComments u
  have settled := Text.settled_of_problemsIn sound
  have settled' := Text.settled_of_problemsIn sound'
  have relaid := relaidFrom_of_linesBetween settled settled' commentFree commentFree' same plain
  rw [ofScript_eq_ok_iff sound, ofScript_eq_ok_iff sound']
  exact ⟨ofSound_eq_ok relaid settled settled' commentFree commentFree',
    ofSound_eq_ok relaid.symm settled' settled commentFree' commentFree⟩

/-- A format call over two lines, and the same call with blank lines and blanks around its lines. -/
theorem ofScript_of_broken_call :
    ofScript "\n s = \"%s\" \t\n \t\r\n\n  %\n\t(x);\n" "A.auto" .empty =
      ofScript "s = \"%s\"\n%\n(x);" "A.auto" .empty := by
  have accepted : (ofScript "s = \"%s\"\n%\n(x);" "A.auto" .empty).toBool = true := by
    decide +kernel
  cases made : ofScript "s = \"%s\"\n%\n(x);" "A.auto" .empty with
  | error problems =>
    rw [made] at accepted
    cases accepted
  | ok program =>
    exact (ofScript_eq_ok_iff_of_linesBetween "A.auto" Text.isGap (by decide +kernel)
      (by decide +kernel) (by decide +kernel) (by decide +kernel) (by decide +kernel)
      (.inl fun _ => id) program).mp made

/-- A line of another blank keeps the call from being one. -/
theorem ofScript_ne_of_wide_blank :
    let t : Text := "s = \"%s\"\n% (x);"
    let u : Text := "s = \"%s\"\n\u00a0\n% (x);"
    t.withoutComments = t ∧ u.withoutComments = u ∧
      (problemsIn t .empty).isEmpty = true ∧ (problemsIn u .empty).isEmpty = true ∧
      t.linesBetween Text.isBlank = u.linesBetween Text.isBlank ∧
      (ofScript t "A.auto" .empty).toOption ≠ (ofScript u "A.auto" .empty).toOption := by
  decide +kernel

end Program

end ScriptLoom
