import ScriptLoom.Identifier
import ScriptLoom.Proofs.Lists
import ScriptLoom.Proofs.Scan

/-! # Names across comments

The names of a text are the runs of identifier characters among its pieces, numbers left out
(`Text.names_eq`). Taking the comments out puts the runs together that only comments on one line
stand between. Such runs lie in one stretch of the text, and a stretch keeps its names exactly if a
name in it is its only run (`Text.names_withoutComments_eq_iff`).
-/

namespace ScriptLoom

/-! ### Runs and stretches -/

namespace Piece

/-- Whether a piece is an identifier character. -/
def isIdent : Piece → Bool
  | .code c => isIdentChar c
  | .region _ _ _ => false

/-- Whether a piece is a comment on one line, of which nothing is left. -/
def vanishes (p : Piece) : Bool :=
  p.isComment && !p.text.contains '\n'

/-- Whether a piece stands between two runs even without comments. -/
def separates (p : Piece) : Bool :=
  !p.isIdent && !p.vanishes

end Piece

/-- The runs of identifier characters among pieces. -/
def runs (ps : List Piece) : List Text :=
  ((ps.splitOnP (!·.isIdent)).map spell).filter (· ≠ [])

/-- Whether a run is a name and no number. -/
def isName : Text → Bool
  | [] => false
  | c :: _ => !c.isDigit

private theorem filter_isName_filter (run : Text) :
    ([run].filter (· ≠ [])).filter isName = [run].filter isName := by
  cases run <;> rfl

/-- The stretches of pieces that consist of identifier characters and comments on one line. -/
def stretches (ps : List Piece) : List (List Piece) :=
  ps.splitOnP Piece.separates

private theorem runs_append_cons {p : Piece} (other : p.isIdent = false) (ps qs : List Piece) :
    runs (ps ++ p :: qs) = runs ps ++ runs qs := by
  rw [runs, List.splitOnP_append_cons ps qs (by simp [other]), List.map_append,
    List.filter_append]
  rfl

private theorem runs_of_isIdent {ps : List Piece} (ident : ∀ p ∈ ps, p.isIdent = true) :
    runs ps = [spell ps].filter (· ≠ []) := by
  rw [runs, List.splitOnP_eq_singleton (by simpa using ident)]
  rfl

private theorem runs_append_of_not_isIdent {ps qs rs : List Piece} (nonempty : qs ≠ [])
    (other : ∀ q ∈ qs, q.isIdent = false) : runs (ps ++ (qs ++ rs)) = runs ps ++ runs rs := by
  induction qs generalizing ps with
  | nil => exact absurd rfl nonempty
  | cons q qs ih =>
    obtain ⟨first, later⟩ := List.forall_mem_cons.mp other
    rw [List.cons_append, runs_append_cons first]
    cases qs with
    | nil => rfl
    | cons q' qs =>
      have rest : runs ([] ++ (q' :: qs ++ rs)) = runs [] ++ runs rs := ih (by simp) later
      rw [List.nil_append] at rest
      rw [rest]
      rfl

/-- Runs hold all identifier characters. -/
theorem flatten_runs (ps : List Piece) : (runs ps).flatten = spell (ps.filter Piece.isIdent) := by
  induction ps using separator_induction (fun p : Piece => !p.isIdent) with
  | whole ps none =>
    have ident : ∀ p ∈ ps, p.isIdent = true := by simpa using none
    rw [runs_of_isIdent ident, List.filter_eq_self.mpr ident]
    by_cases empty : spell ps = [] <;> simp [empty]
  | cut front p back other left right =>
    rw [Bool.not_eq_true'] at other
    rw [runs_append_cons other, List.flatten_append, left, right, List.filter_append,
      List.filter_cons_of_neg (by simp [other]), spell_append]

/-! ### The names of a text -/

namespace Identifier

private theorem map_name_ofRun (before run : Text) :
    (ofRun before run).map (·.name) = [run.reverse].filter isName := by
  unfold ofRun
  split
  · next empty => simp [empty, isName]
  · next c rest same =>
    rw [same]
    by_cases digit : c.isDigit = true <;> simp [digit, isName]

/-- The identifiers among pieces are the names among their runs. -/
theorem map_name_ofPieces {before run : Text} (ident : ∀ c ∈ run, isIdentChar c = true)
    (ps : List Piece) :
    (ofPieces before run ps).map (·.name) =
      (runs (run.reverse.map .code ++ ps)).filter isName := by
  have own : ∀ run : Text, (∀ c ∈ run, isIdentChar c = true) →
      (runs (run.reverse.map .code)).filter isName = [run.reverse].filter isName := by
    intro run ident
    rw [runs_of_isIdent, spell_map_code, filter_isName_filter]
    intro p member
    obtain ⟨c, listed, rfl⟩ := List.mem_map.mp member
    exact ident c (List.mem_reverse.mp listed)
  induction ps generalizing before run with
  | nil => rw [ofPieces, map_name_ofRun, List.append_nil, own run ident]
  | cons p ps ih =>
    cases p with
    | code c =>
      rw [ofPieces]
      by_cases inName : isIdentChar c = true
      · rw [if_pos inName, ih (List.forall_mem_cons.mpr ⟨inName, ident⟩)]
        simp
      · rw [if_neg inName, List.map_append, map_name_ofRun, ih (List.forall_mem_nil _),
          runs_append_cons (by simpa [Piece.isIdent] using inName), List.filter_append,
          own run ident]
        rfl
    | region kind body closed =>
      rw [ofPieces, List.map_append, map_name_ofRun, ih (List.forall_mem_nil _),
        runs_append_cons rfl, List.filter_append, own run ident]
      rfl

/-- An identifier between the pieces around it, which do not continue it. -/
structure Between (ident : Identifier) (front behind : List Piece) : Prop where
  before : ident.before = (spell front).reverse
  name : isName ident.name = true
  chars : ∀ c ∈ ident.name, isIdentChar c = true
  starts : ∀ p ∈ front.getLast?, p.isIdent = false
  ends : ∀ p ∈ behind.head?, p.isIdent = false

/-- A run gives one identifier if it is a name, and else none. -/
theorem mem_ofRun {before run : Text} {ident : Identifier} :
    ident ∈ ofRun before run ↔ ident = ⟨before, run.reverse⟩ ∧ isName run.reverse = true := by
  unfold ofRun
  split
  · next empty => simp [empty, isName]
  · next c rest same =>
    rw [same]
    by_cases digit : c.isDigit = true <;> simp [digit, isName]

private theorem ofPieces_cons {p : Piece} (other : p.isIdent = false) (before run : Text)
    (ps : List Piece) :
    ofPieces before run (p :: ps) =
      ofRun before run ++ ofPieces (p.text.reverse ++ (run ++ before)) [] ps := by
  cases p with
  | code c =>
    rw [Piece.isIdent] at other
    rw [ofPieces, if_neg (by simp [other])]
    rfl
  | region kind body closed => rfl

private theorem ofPieces_append_cons {p : Piece} (other : p.isIdent = false) (before run : Text)
    (ps qs : List Piece) :
    ofPieces before run (ps ++ p :: qs) =
      ofPieces before run ps ++
        ofPieces (p.text.reverse ++ ((spell ps).reverse ++ (run ++ before))) [] qs := by
  fun_induction ofPieces before run ps with
  | case1 before run => exact ofPieces_cons other before run qs
  | case2 before run c ps ident ih =>
    rw [List.cons_append, ofPieces, if_pos ident, ih]
    simp [Piece.text]
  | case3 before run c ps ident ih =>
    rw [List.cons_append, ofPieces, if_neg ident, ih]
    simp [Piece.text]
  | case4 before run kind body closed ps ih =>
    rw [List.cons_append, ofPieces, ih]
    simp [Piece.text]

private theorem ofPieces_map_code_append {name : Text} (chars : ∀ c ∈ name, isIdentChar c = true)
    (before run : Text) (ps : List Piece) :
    ofPieces before run (name.map .code ++ ps) = ofPieces before (name.reverse ++ run) ps := by
  induction name generalizing run with
  | nil => rfl
  | cons c name ih =>
    obtain ⟨first, later⟩ := List.forall_mem_cons.mp chars
    rw [List.map_cons, List.cons_append, ofPieces, if_pos first, ih later]
    simp

private theorem exists_between_of_mem_ofPieces {before run : Text} {ps : List Piece}
    {ident : Identifier} (chars : ∀ c ∈ run, isIdentChar c = true)
    (member : ident ∈ ofPieces before run ps) :
    ∃ front behind, run.reverse.map .code ++ ps = front ++ (ident.name.map .code ++ behind) ∧
      ident.before = (spell front).reverse ++ before ∧
      Between ⟨(spell front).reverse, ident.name⟩ front behind := by
  induction ps generalizing before run with
  | nil =>
    obtain ⟨rfl, named⟩ := mem_ofRun.mp member
    exact ⟨[], [], by simp, rfl, rfl, named, by simpa using chars, by simp, by simp⟩
  | cons p ps ih =>
    by_cases inName : p.isIdent = true
    · cases p with
      | region kind body closed => cases inName
      | code c =>
        rw [Piece.isIdent] at inName
        rw [ofPieces, if_pos inName] at member
        obtain ⟨front, behind, whole, rest⟩ :=
          ih (List.forall_mem_cons.mpr ⟨inName, chars⟩) member
        exact ⟨front, behind, by rw [← whole]; simp, rest⟩
    · have other : p.isIdent = false := by simpa using inName
      rw [ofPieces_cons other] at member
      rcases List.mem_append.mp member with own | later
      · obtain ⟨rfl, named⟩ := mem_ofRun.mp own
        exact ⟨[], p :: ps, rfl, rfl, rfl, named, by simpa using chars, by simp,
          by simpa using other⟩
      · obtain ⟨front, behind, rfl, place, between⟩ := ih (by simp) later
        refine ⟨run.reverse.map .code ++ p :: front, behind, by simp, ?_, rfl, between.name,
          between.chars, ?_, between.ends⟩
        · rw [place, spell_append, spell_map_code, spell_cons]
          simp
        · intro q last
          cases front with
          | nil =>
            rw [List.getLast?_concat] at last
            cases last
            exact other
          | cons q' front => exact between.starts q (by simpa [List.getLast?_append] using last)

end Identifier

/-- The identifiers of a text are the names among its pieces that their neighbours do not
continue. -/
theorem Text.mem_identifiers {t : Text} {ident : Identifier} :
    ident ∈ t.identifiers ↔
      ∃ front behind, t.pieces = front ++ (ident.name.map .code ++ behind) ∧
        ident.Between front behind := by
  constructor
  · intro member
    obtain ⟨front, behind, whole, place, between⟩ :=
      Identifier.exists_between_of_mem_ofPieces (by simp) member
    rw [List.append_nil] at place
    exact ⟨front, behind, whole, place, between.name, between.chars, between.starts, between.ends⟩
  · rintro ⟨front, behind, whole, place, named, chars, starts, ends⟩
    have own : ident ∈ Identifier.ofPieces ident.before [] (ident.name.map .code ++ behind) := by
      rw [Identifier.ofPieces_map_code_append chars, List.append_nil]
      have made : ident ∈ Identifier.ofRun ident.before ident.name.reverse :=
        Identifier.mem_ofRun.mpr ⟨by simp, by simpa using named⟩
      cases behind with
      | nil => exact made
      | cons p behind =>
        rw [Identifier.ofPieces_cons (ends p rfl)]
        exact List.mem_append_left _ made
    rw [Text.identifiers, whole]
    rcases List.eq_nil_or_concat front with rfl | ⟨front, p, rfl⟩
    · rw [place] at own
      exact own
    · rw [List.concat_eq_append] at starts place ⊢
      rw [List.append_assoc, List.singleton_append,
        Identifier.ofPieces_append_cons (starts p List.getLast?_concat)]
      refine List.mem_append_right _ ?_
      rw [place] at own
      simpa using own

private theorem Text.names_eq (t : Text) : t.names = (runs t.pieces).filter isName :=
  Identifier.map_name_ofPieces (List.forall_mem_nil _) t.pieces

/-! ### Runs put together -/

private theorem stripped_of_vanishes {p : Piece} (gone : p.vanishes = true) : p.stripped = [] := by
  simp only [Piece.vanishes, Bool.and_eq_true, Bool.not_eq_true', List.contains_eq_mem,
    decide_eq_false_iff_not] at gone
  obtain ⟨comment, inLine⟩ := gone
  rcases p with c | ⟨kind, body, closed⟩
  · cases comment
  · cases kind with
    | comment =>
      have none : body.filter (· = '\n') = [] :=
        List.filter_eq_nil_iff.mpr fun c member => by
          rw [decide_eq_true_eq]
          rintro rfl
          exact inLine member
      rw [Piece.stripped, none, List.map_nil]
    | string => cases comment
    | character => cases comment

/-- A piece between two stretches leaves pieces that stand between runs. -/
theorem stripped_of_separates {p : Piece} (between : p.separates = true) :
    p.stripped ≠ [] ∧ ∀ q ∈ p.stripped, q.isIdent = false := by
  simp only [Piece.separates, Bool.and_eq_true, Bool.not_eq_true'] at between
  obtain ⟨other, stays⟩ := between
  cases comment : p.isComment with
  | false =>
    rw [stripped_of_not_comment comment]
    simpa using other
  | true =>
    rcases p with c | ⟨kind, body, closed⟩
    · cases comment
    · cases kind with
      | comment =>
        have feed : '\n' ∈ body := by simpa [Piece.vanishes, comment, Piece.text] using stays
        refine ⟨?_, fun q member => ?_⟩
        · simpa [Piece.stripped] using feed
        · obtain ⟨c, listed, rfl⟩ := List.mem_map.mp member
          obtain rfl : c = '\n' := by simpa using (List.mem_filter.mp listed).2
          rfl
      | string => cases comment
      | character => cases comment

/-- Without comments a stretch is one run. -/
theorem runs_flatMap_stripped {stretch : List Piece}
    (only : ∀ p ∈ stretch, p.separates = false) :
    runs (stretch.flatMap Piece.stripped) = [(runs stretch).flatten].filter (· ≠ []) := by
  have kept : stretch.flatMap Piece.stripped = stretch.filter Piece.isIdent := by
    induction stretch with
    | nil => rfl
    | cons p stretch ih =>
      obtain ⟨first, later⟩ := List.forall_mem_cons.mp only
      rw [List.flatMap_cons, ih later, List.filter_cons]
      cases ident : p.isIdent with
      | true =>
        have noComment : p.isComment = false := by
          cases p with
          | code c => rfl
          | region => cases ident
        rw [stripped_of_not_comment noComment]
        rfl
      | false => rw [stripped_of_vanishes (by simpa [Piece.separates, ident] using first)]; rfl
  rw [kept, flatten_runs, runs_of_isIdent fun p member => (List.mem_filter.mp member).2]

variable {rs : List Text}

private theorem isName_append {s : Text} (nonempty : s ≠ []) (t : Text) : isName
    (s ++ t) = isName s := by
  cases s with
  | nil => exact absurd rfl nonempty
  | cons c s => rfl

/-- Runs put together are a name only if the first of them is one. -/
theorem length_filter_isName_flatten (nonempty : ∀ r ∈ rs, r ≠ []) :
    ([rs.flatten].filter isName).length ≤ (rs.filter isName).length := by
  cases rs with
  | nil => exact Nat.le_refl _
  | cons r rs =>
    have same := isName_append (nonempty r List.mem_cons_self) rs.flatten
    by_cases name : isName r = true <;> simp [same, name]

/-- Runs put together are the names among them exactly if a name is the only run. -/
theorem filter_isName_flatten_iff (nonempty : ∀ r ∈ rs, r ≠ []) :
    [rs.flatten].filter isName = rs.filter isName ↔ ∀ r ∈ rs, isName r = true → rs = [r] := by
  cases rs with
  | nil => simp [isName]
  | cons r rs =>
    obtain ⟨first, later⟩ := List.forall_mem_cons.mp nonempty
    have same := isName_append first rs.flatten
    have empty : rs.flatten = [] ↔ rs = [] := by
      rw [List.flatten_eq_nil_iff]
      constructor
      · intro none
        exact List.eq_nil_iff_forall_not_mem.mpr fun s member => later s member (none s member)
      · rintro rfl
        simp
    rw [List.flatten_cons]
    by_cases name : isName r = true
    · have alone : (∀ s ∈ r :: rs, isName s = true → r :: rs = [s]) ↔ rs = [] := by
        constructor
        · intro only
          exact (List.cons.inj (only r List.mem_cons_self name)).2
        · rintro rfl
          simp
      rw [alone, List.filter_cons_of_pos (same.trans name), List.filter_cons_of_pos name,
        List.filter_nil, List.cons.injEq, List.append_right_eq_self, empty]
      constructor
      · exact fun both => both.1
      · rintro rfl
        exact ⟨rfl, rfl⟩
    · have none : (∀ s ∈ r :: rs, isName s = true → r :: rs = [s]) ↔
          ∀ s ∈ rs, ¬isName s = true := by
        constructor
        · intro only s member isOne
          have head := (List.cons.inj (only s (List.mem_cons_of_mem _ member) isOne)).1
          exact name (head ▸ isOne)
        · intro other s member isOne
          rcases List.mem_cons.mp member with rfl | inRest
          · exact absurd isOne name
          · exact absurd isOne (other s inRest)
      rw [none, List.filter_cons_of_neg (by rw [same]; exact name), List.filter_cons_of_neg name,
        List.filter_nil, eq_comm, List.filter_eq_nil_iff]

private theorem ne_nil_of_mem_runs {ps : List Piece} {run : Text} (member : run ∈ runs ps) : run ≠
    [] := by
  simpa using (List.mem_filter.mp member).2

namespace Text

/-- **Which comments part names.** Without its comments a text has the names that it has with them
exactly if in every stretch of identifier characters and comments on one line a name is the only
run. -/
theorem names_withoutComments_eq_iff (t : Text) :
    t.withoutComments.names = t.names ↔
      ∀ stretch ∈ stretches t.pieces, ∀ run ∈ runs stretch, isName run = true →
        runs stretch = [run] := by
  have before : t.names = (stretches t.pieces).flatMap fun s => (runs s).filter isName := by
    rw [names_eq]
    refine (flatMap_splitOnP (f := fun ps => (runs ps).filter isName) ?_ t.pieces).symm
    intro ps p qs between
    simp only [Piece.separates, Bool.and_eq_true, Bool.not_eq_true'] at between
    rw [runs_append_cons between.1, List.filter_append]
  have after : t.withoutComments.names =
      (stretches t.pieces).flatMap fun s => [(runs s).flatten].filter isName := by
    have cut : ∀ (ps : List Piece) (p : Piece) (qs : List Piece), p.separates = true →
        runs ((ps ++ p :: qs).flatMap Piece.stripped) =
          runs (ps.flatMap Piece.stripped) ++ runs (qs.flatMap Piece.stripped) := by
      intro ps p qs between
      obtain ⟨nonempty, other⟩ := stripped_of_separates between
      rw [List.flatMap_append, List.flatMap_cons, runs_append_of_not_isIdent nonempty other]
    have whole := flatMap_splitOnP (f := fun ps => runs (ps.flatMap Piece.stripped)) cut t.pieces
    rw [names_eq, pieces_withoutComments, ← whole, List.filter_flatMap]
    refine List.flatMap_congr fun stretch member => ?_
    rw [runs_flatMap_stripped (separates_of_mem_splitOnP member), filter_isName_filter]
  rw [before, after, flatMap_eq_flatMap_iff fun s _ =>
    length_filter_isName_flatten fun r => ne_nil_of_mem_runs]
  exact forall₂_congr fun s _ => filter_isName_flatten_iff fun r => ne_nil_of_mem_runs

/-- A keyword and a name with nothing but a comment between them become one name. -/
theorem names_withoutComments_ne :
    names (withoutComments "return/**/Sleep(10);") ≠ names "return/**/Sleep(10);" := by
  decide +kernel

end Text

end ScriptLoom
