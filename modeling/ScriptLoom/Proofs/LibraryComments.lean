import ScriptLoom.Catalog.Mining
import ScriptLoom.Proofs.LineComments
import ScriptLoom.Proofs.Lists

/-! # Comments in a library

A line of a library may announce an import, a function or a declaration, and the member is then
completed from the code that follows. Comments leave the depths of lines, the blocks of functions
and the code of a body alone, so the catalog depends on them only by what the lines announce
(`Catalog.ofLibrary_withoutComments`). What a line announces is read off its text with the comments
in it: a remark that mentions a class names the class.
-/

namespace ScriptLoom

/-! ### Searches among pieces without comments -/

private theorem stripped_comment (body : Text) (closed : Bool) :
    (Piece.region .comment body closed).stripped =
      List.replicate (body.count '\n') (.code '\n') := by
  rw [Piece.stripped, List.filter_eq, List.map_replicate]

private theorem stripped_literal {kind : Region} (literal : kind ≠ .comment) {body : Text}
    {closed : Bool} :
    (Piece.region kind body closed).stripped = [.region kind body closed] :=
  stripped_of_not_comment (isComment_literal literal _ _)

private theorem splitAtCode?_append {c : Char} {front : List Piece} (absent : .code c ∉ front)
    (ps : List Piece) :
    splitAtCode? c (front ++ ps) =
      (splitAtCode? c ps).map fun split => (front ++ split.1, split.2) := by
  induction front with
  | nil => simp
  | cons p front ih =>
    have other : p ≠ .code c := (List.ne_of_not_mem_cons absent).symm
    rw [List.cons_append, splitAtCode?, if_neg other, ih (List.not_mem_of_not_mem_cons absent),
      Option.map_map]
    rfl

private theorem splitAtCode?_flatMap_stripped {c : Char} (inLine : c ≠ '\n') (ps : List Piece) :
    splitAtCode? c (ps.flatMap Piece.stripped) = (splitAtCode? c ps).map fun split =>
      (split.1.flatMap Piece.stripped, split.2.flatMap Piece.stripped) := by
  induction ps with
  | nil => rfl
  | cons p ps ih =>
    rw [List.flatMap_cons, splitAtCode?]
    split
    · next found =>
      rw [found]
      change splitAtCode? c (.code c :: _) = _
      rw [splitAtCode?, if_pos rfl]
      rfl
    · next other =>
      have absent : .code c ∉ p.stripped := by
        intro member
        cases p with
        | code d => exact other (List.mem_singleton.mp member).symm
        | region kind body closed =>
          by_cases comment : kind = .comment
          · rw [comment, stripped_comment] at member
            exact inLine (Piece.code.inj (List.eq_of_mem_replicate member))
          · rw [stripped_literal comment] at member
            cases List.mem_singleton.mp member
      rw [splitAtCode?_append absent, ih, Option.map_map, Option.map_map]
      rfl

section Close

variable {opening closing : Char}

private theorem splitAtClose?_cons_region (depth : Nat) (kind : Region) (body : Text)
    (closed : Bool) (ps : List Piece) :
    splitAtClose? opening closing depth (.region kind body closed :: ps) =
      (splitAtClose? opening closing depth ps).map fun split =>
        (.region kind body closed :: split.1, split.2) :=
  rfl

private theorem splitAtClose?_cons_other {c : Char} (differs : c ≠ opening) (differs' : c ≠ closing)
    (depth : Nat) (ps : List Piece) :
    splitAtClose? opening closing depth (.code c :: ps) =
      (splitAtClose? opening closing depth ps).map fun split => (.code c :: split.1, split.2) := by
  simp [splitAtClose?, differs, differs']

variable (inLine : opening ≠ '\n') (inLine' : closing ≠ '\n')

include inLine inLine'

private theorem splitAtClose?_lineFeeds (depth n : Nat) (ps : List Piece) :
    splitAtClose? opening closing depth (List.replicate n (.code '\n') ++ ps) =
      (splitAtClose? opening closing depth ps).map fun split =>
        (List.replicate n (.code '\n') ++ split.1, split.2) := by
  induction n with
  | zero => simp
  | succ n ih =>
    rw [List.replicate_succ, List.cons_append,
      splitAtClose?_cons_other inLine.symm inLine'.symm, ih, Option.map_map]
    rfl

private theorem splitAtClose?_flatMap_stripped (depth : Nat) (ps : List Piece) :
    splitAtClose? opening closing depth (ps.flatMap Piece.stripped) =
      (splitAtClose? opening closing depth ps).map fun split =>
        (split.1.flatMap Piece.stripped, split.2.flatMap Piece.stripped) := by
  fun_induction splitAtClose? opening closing depth ps with
  | case1 => rfl
  | case2 depth ps ih =>
    change splitAtClose? opening closing depth (.code opening :: ps.flatMap Piece.stripped) = _
    simp only [splitAtClose?, if_true, ih, Option.map_map]
    rfl
  | case3 ps differs =>
    change splitAtClose? opening closing 0 (.code closing :: ps.flatMap Piece.stripped) = _
    simp [splitAtClose?, differs]
  | case4 ps depth differs ih =>
    change splitAtClose? opening closing (depth + 1)
      (.code closing :: ps.flatMap Piece.stripped) = _
    simp only [splitAtClose?, differs, if_true, if_false, ih, Option.map_map]
    rfl
  | case5 depth c ps differs differs' ih =>
    change splitAtClose? opening closing depth (.code c :: ps.flatMap Piece.stripped) = _
    rw [splitAtClose?_cons_other differs differs', ih, Option.map_map, Option.map_map]
    rfl
  | case6 depth p ps noCode ih =>
    rw [List.flatMap_cons]
    cases p with
    | code c => exact absurd rfl (noCode c)
    | region kind body closed =>
      by_cases comment : kind = .comment
      · subst comment
        rw [stripped_comment, splitAtClose?_lineFeeds inLine inLine', ih, Option.map_map,
          Option.map_map, ← stripped_comment body closed]
        rfl
      · rw [stripped_literal comment, List.singleton_append, splitAtClose?_cons_region, ih,
          Option.map_map, Option.map_map]
        refine congrArg (Option.map · _) (funext fun split => ?_)
        simp [stripped_literal comment]

end Close

private theorem spell_flatMap_stripped (ps : List Piece) :
    spell (ps.flatMap Piece.stripped) = ps.flatMap Piece.withoutComment := by
  rw [spell, List.flatMap_assoc]
  exact List.flatMap_congr fun p _ => spell_stripped p

/-- A part of the pieces of a text is stripped like a text of its own. -/
theorem Text.withoutComments_spell {t : Text} {ps : List Piece} (part : ps <:+: t.pieces) :
    (spell ps).withoutComments = spell (ps.flatMap Piece.stripped) := by
  rw [Text.withoutComments, Text.pieces_spell_part part, spell_flatMap_stripped]

/-- The first block of a text without comments is the first block without its comments. -/
theorem Text.cutBlock?_withoutComments (t : Text) :
    t.withoutComments.cutBlock? = t.cutBlock?.map fun cut =>
      (cut.1.withoutComments, cut.2.withoutComments) := by
  rw [Text.cutBlock?, Text.cutBlock?, Text.pieces_withoutComments,
    splitAtCode?_flatMap_stripped (by decide)]
  cases opens : splitAtCode? '{' t.pieces with
  | none => rfl
  | some opened =>
    obtain ⟨header, opened⟩ := opened
    obtain ⟨whole, -⟩ := eq_of_splitAtCode? opens
    simp only [Option.map_some, Option.bind_eq_bind, Option.bind_some]
    rw [splitAtClose?_flatMap_stripped (by decide) (by decide)]
    cases closes : splitAtClose? '{' '}' 0 opened with
    | none => rfl
    | some parts =>
      obtain ⟨inside, after⟩ := parts
      obtain ⟨split, -⟩ : opened = _ ∧ _ := eq_of_splitAtClose? closes
      have block : spell header ++ '{' :: spell inside ++ ['}'] =
          spell (header ++ .code '{' :: (inside ++ [.code '}'])) := by
        simp [Piece.text]
      have first : header ++ .code '{' :: (inside ++ [.code '}']) <:+: t.pieces :=
        ⟨[], after, by rw [whole, split]; simp⟩
      have rest : after <:+: t.pieces :=
        ⟨header ++ .code '{' :: (inside ++ [.code '}']), [], by rw [whole, split]; simp⟩
      simp only [Option.map_some, Option.bind_some, Option.pure_def]
      rw [block, Text.withoutComments_spell first, Text.withoutComments_spell rest]
      simp [Piece.stripped, Piece.text]

namespace Mining

/-! ### What lines announce and contribute -/

/-- What a line of a library announces, before its function is cut out. -/
inductive Announcement where
  | importLine (line : Text)
  | function (name : Text)
  | declaration (line : Text)
  deriving DecidableEq, Repr

/-- What a line announces. -/
def Line.announces? (className : Option Text) (line : Line) : Option Announcement :=
  let trimmed := line.text.trim
  if line.depth == 0 && trimmed.startsWith Keyword.imports && trimmed.endsWith [';'] then
    some (.importLine trimmed)
  else if !line.startsMember then none
  else if trimmed.endsWith ['{'] then
    if declaresType trimmed then none
    else (trimmed.headerName?.filter fun name =>
      !(name.map Char.toLower = ("run" : Text) || some name == className)).map .function
  else if trimmed.endsWith [';'] then trimmed.fieldName?.map fun _ => .declaration trimmed
  else none

/-- The member that was announced on the line of a number, with the library from the line on. -/
def Announcement.complete (number : Nat) (tail : Text) : Announcement → Except Failure Member
  | .importLine line => .ok (.importLine line)
  | .function name =>
    match tail.cutBlock? with
    | none => .error (.of (.openFunction name number))
    | some (block, _) => .ok (.function ⟨name, functionBody block⟩)
  | .declaration line => .ok (.declaration ⟨line.fieldName?.getD [], line⟩)

/-- What the lines of a library announce, with the numbers of the lines. -/
def announcements (library : Text) : List (Nat × Announcement) :=
  (linesOf library).filterMap fun line =>
    (line.announces? (className? library)).map (line.number, ·)

/-- The finding on a line, unless nothing is found. -/
def finding? (number : Nat) : Except Failure (Option Member) → Option (Nat × Except Failure Member)
  | .ok found => found.map fun member => (number, .ok member)
  | .error failure => some (number, .error failure)

/-- What the lines of a library contribute to its catalog, with the numbers of the lines. -/
def contributions (library : Text) : List (Nat × Except Failure Member) :=
  (linesOf library).filterMap fun line => finding? line.number (member? (className? library) line)

/-- A member is what its line announces, completed by the text from that line on. -/
theorem member?_eq (className : Option Text) (line : Line) :
    member? className line =
      match line.announces? className with
      | none => .ok none
      | some announced => (announced.complete line.number line.tail).map some := by
  rw [member?, Line.announces?]
  split
  · rfl
  · split
    · rfl
    · split
      · rw [function?]
        split
        · rfl
        · cases line.text.trim.headerName? with
          | none => rfl
          | some name =>
            dsimp only
            rw [Option.filter_some]
            cases name.map Char.toLower = ("run" : Text) || some name == className with
            | true => rfl
            | false =>
              dsimp only [Bool.not_false, if_true, Option.map_some, Announcement.complete]
              rcases line.tail.cutBlock? with _ | ⟨block, after⟩ <;> rfl
      · split
        · cases named : line.text.trim.fieldName? with
          | none => rfl
          | some name => simp [Announcement.complete, named, Except.map]
        · rfl

/-- The members among lines, without the lines that have none. -/
theorem mapM_filterMap_id (find : Line → Except Failure (Option Member)) (lines : List Line) :
    (lines.mapM find).map (List.filterMap id) =
      (lines.filterMap fun line => finding? line.number (find line)).mapM (·.2) := by
  induction lines with
  | nil => rfl
  | cons line lines ih =>
    rw [List.mapM_cons, List.filterMap_cons]
    cases find line with
    | error failure => rfl
    | ok found =>
      cases found with
      | none =>
        refine Eq.trans ?_ ih
        cases lines.mapM find <;> rfl
      | some member =>
        change _ = List.mapM (·.2) ((line.number, Except.ok member) :: lines.filterMap _)
        rw [List.mapM_cons, ← ih]
        cases lines.mapM find <;> rfl

/-- The catalog of a library is made of what its lines contribute. -/
theorem ofLibrary_eq (library : Text) :
    Catalog.ofLibrary library = (do
      let members ← (contributions library).mapM (·.2)
      return .ofParts (members.filterMap Member.function?) (members.filterMap Member.declaration?)
        (members.filterMap Member.import?)) := by
  rw [Catalog.ofLibrary, contributions, ← mapM_filterMap_id]
  cases (linesOf library).mapM (member? (className? library)) <;> rfl

/-- The lines of a library are listed with their numbers, texts, beginnings and tails. -/
theorem getElem?_linesOf {library : Text} {i : Nat} {line : Line} :
    (linesOf library)[i]? = some line ↔
      line.number = i + 1 ∧ library.lines[i]? = some line.text ∧
        ((0, false) :: lineBeginnings 0 library.pieces)[i]? = some (line.depth, line.hidden) ∧
        library.lineTails[i]? = some line.tail := by
  rw [linesOf, List.getElem?_map, Option.map_eq_some_iff]
  simp only [List.getElem?_zip_eq_some, Text.numberedLines, List.getElem?_map, List.getElem?_zipIdx,
    Option.map_eq_some_iff]
  constructor
  · rintro ⟨⟨⟨⟨number, text⟩, depth, hidden⟩, tail⟩, ⟨⟨found, start⟩, rest⟩, rfl⟩
    obtain ⟨entry, ⟨part, listed, rfl⟩, same⟩ := found
    cases same
    exact ⟨by simp, listed, start, rest⟩
  · rintro ⟨number, text, start, rest⟩
    exact ⟨(((line.number, line.text), (line.depth, line.hidden)), line.tail),
      ⟨⟨⟨(line.text, i), ⟨line.text, text, by simp⟩, by rw [number]⟩, start⟩, rest⟩, rfl⟩

/-- A line of a library is listed under its number. -/
theorem exists_getElem?_of_mem {library : Text} {line : Line} (member : line ∈ linesOf library) :
    (linesOf library)[line.number - 1]? = some line := by
  obtain ⟨i, listed⟩ := List.mem_iff_getElem?.mp member
  rwa [(getElem?_linesOf.mp listed).1, Nat.add_sub_cancel]

/-- What is contributed is what is announced, completed from the lines of the announcements. -/
theorem contributions_eq (library : Text) :
    contributions library = (announcements library).map fun entry =>
      (entry.1, entry.2.complete entry.1 ((library.lineTails[entry.1 - 1]?).getD [])) := by
  rw [contributions, announcements, List.map_filterMap]
  refine List.filterMap_congr fun line member => ?_
  have tail := (getElem?_linesOf.mp (exists_getElem?_of_mem member)).2.2.2
  rw [member?_eq, Option.map_map]
  cases line.announces? (className? library) with
  | none => rfl
  | some announced =>
    simp only [Option.map_some, Function.comp_apply, tail, Option.getD_some]
    cases announced.complete line.number line.tail <;> rfl

/-! ### Comments leave depths and lines alone -/

private theorem lineBeginnings_lineFeeds (depth n : Nat) (ps : List Piece) :
    lineBeginnings depth (List.replicate n (.code '\n') ++ ps) =
      List.replicate n (depth, false) ++ lineBeginnings depth ps := by
  induction n with
  | zero => rfl
  | succ n ih =>
    rw [List.replicate_succ, List.cons_append, lineBeginnings, if_pos rfl, ih]
    rfl

private theorem lineBeginnings_flatMap_stripped {ps : List Piece} (formed : ∀ p ∈ ps, p.WellFormed)
    (depth : Nat) :
    lineBeginnings depth (ps.flatMap Piece.stripped) =
      (lineBeginnings depth ps).map fun start => (start.1, false) := by
  induction ps generalizing depth with
  | nil => rfl
  | cons p ps ih =>
    have rest := ih fun q member => formed q (List.mem_cons_of_mem _ member)
    rw [List.flatMap_cons]
    cases p with
    | code c =>
      change lineBeginnings depth (.code c :: ps.flatMap Piece.stripped) = _
      rw [lineBeginnings, lineBeginnings]
      split
      · rw [rest]
        rfl
      · exact rest _
    | region kind body closed =>
      by_cases comment : kind = .comment
      · subst comment
        rw [stripped_comment, lineBeginnings_lineFeeds, lineBeginnings, rest, List.map_append,
          List.map_replicate]
      · have inLine : '\n' ∉ body :=
          (formed _ List.mem_cons_self).not_mem_lineFeed (isComment_literal comment _ _) (by simp)
        rw [stripped_literal comment, List.singleton_append, lineBeginnings, lineBeginnings,
          List.count_eq_zero.mpr inLine]
        exact rest _

/-- Behind a text, the line feeds of the next one are counted on. -/
theorem getElem?_afterLineFeeds_append (s t : Text) (i : Nat) :
    (Text.afterLineFeeds (s ++ t))[s.count '\n' + i]? = (Text.afterLineFeeds t)[i]? := by
  have length : ((Text.afterLineFeeds s).map (· ++ t)).length = s.count '\n' := by
    rw [List.length_map, Text.length_afterLineFeeds]
  rw [Text.afterLineFeeds_append, List.getElem?_append_right (by omega), length,
    Nat.add_sub_cancel_left]

/-- Where a line starts outside comments, what follows is scanned alone. -/
theorem exists_tail {ps : List Piece} {depth d i : Nat}
    (start : (lineBeginnings depth ps)[i]? = some (d, false)) :
    ∃ qs, qs <:+ ps ∧ (Text.afterLineFeeds (spell ps))[i]? = some (spell qs) ∧
      (Text.afterLineFeeds (spell (ps.flatMap Piece.stripped)))[i]? =
        some (spell (qs.flatMap Piece.stripped)) := by
  induction ps generalizing depth i with
  | nil => cases start
  | cons p ps ih =>
    rw [List.flatMap_cons, spell_append]
    cases p with
    | code c =>
      change ∃ qs, qs <:+ _ ∧ (Text.afterLineFeeds (c :: spell ps))[i]? = _ ∧
        (Text.afterLineFeeds (c :: spell (ps.flatMap Piece.stripped)))[i]? = _
      rw [lineBeginnings] at start
      rw [Text.afterLineFeeds, Text.afterLineFeeds]
      split at start
      · next feed =>
        rw [if_pos feed, if_pos feed]
        cases i with
        | zero => exact ⟨ps, List.suffix_cons _ _, rfl, rfl⟩
        | succ i =>
          obtain ⟨qs, suffix, raw, stripped⟩ := ih start
          exact ⟨qs, suffix.trans (List.suffix_cons _ _), raw, stripped⟩
      · next other =>
        rw [if_neg other, if_neg other]
        obtain ⟨qs, suffix, raw, stripped⟩ := ih start
        exact ⟨qs, suffix.trans (List.suffix_cons _ _), raw, stripped⟩
    | region kind body closed =>
      -- a line feed inside a region starts a line in it
      rw [lineBeginnings] at start
      have behind : body.count '\n' ≤ i := by
        by_contra inside
        rw [List.getElem?_append_left (by simpa using inside), List.getElem?_replicate] at start
        simp [Nat.lt_of_not_le inside] at start
      obtain ⟨j, rfl⟩ := Nat.exists_eq_add_of_le behind
      rw [List.getElem?_append_right (by simp), List.length_replicate,
        Nat.add_sub_cancel_left] at start
      obtain ⟨qs, suffix, raw, stripped⟩ := ih start
      refine ⟨qs, suffix.trans (List.suffix_cons _ _), ?_, ?_⟩
      · rw [spell_cons, ← raw]
        exact getElem?_afterLineFeeds_append body _ j
      · have count := count_withoutComment (.region kind body closed)
        rw [← spell_stripped] at count
        rw [← stripped, ← getElem?_afterLineFeeds_append _ _ j, count]
        rfl

private theorem functionBody_withoutComments (block : Text) :
    functionBody block.withoutComments = functionBody block := by
  rw [functionBody, functionBody, (Text.commentFree_withoutComments block).withoutComments_eq]

/-! ### Completion without comments -/

private theorem getElem?_lineTails_withoutComments {library : Text} {line : Line} {i : Nat}
    (listed : (linesOf library)[i]? = some line) (outside : line.hidden = false) :
    library.withoutComments.lineTails[i]? = some line.tail.withoutComments := by
  obtain ⟨-, -, start, tail⟩ := getElem?_linesOf.mp listed
  rw [outside] at start
  cases i with
  | zero =>
    cases tail
    rfl
  | succ i =>
    obtain ⟨qs, suffix, raw, stripped⟩ := exists_tail start
    rw [Text.spell_pieces] at raw
    have whole : spell (library.pieces.flatMap Piece.stripped) = library.withoutComments :=
      spell_flatMap_stripped _
    rw [whole] at stripped
    have same : spell qs = line.tail := Option.some.inj (raw.symm.trans tail)
    rw [← same, Text.withoutComments_spell suffix.isInfix]
    exact stripped

private theorem Announcement.complete_withoutComments (announced : Announcement) (number : Nat)
    (tail : Text) :
    announced.complete number tail.withoutComments = announced.complete number tail := by
  cases announced with
  | importLine line => rfl
  | declaration line => rfl
  | function name =>
    rw [complete, complete, Text.cutBlock?_withoutComments]
    cases tail.cutBlock? with
    | none => rfl
    | some cut =>
      obtain ⟨block, after⟩ := cut
      dsimp only [Option.map_some]
      rw [functionBody_withoutComments]

/-- The announcement that a finding goes back to. -/
def announcementOf? : Except Failure Member → Option Announcement
  | .ok (.importLine line) => some (.importLine line)
  | .ok (.function f) => some (.function f.name)
  | .ok (.declaration d) => some (.declaration d.text)
  | .error failure =>
    match failure.cause with
    | .openFunction name _ => some (.function name)
    | _ => none

private theorem announcementOf?_complete (announced : Announcement) (number : Nat) (tail : Text) :
    announcementOf? (announced.complete number tail) = some announced := by
  cases announced with
  | importLine line => rfl
  | declaration line => rfl
  | function name =>
    rw [Announcement.complete]
    rcases tail.cutBlock? with _ | ⟨block, after⟩ <;> rfl

/-- What is contributed tells what was announced. -/
theorem announcements_eq (library : Text) :
    announcements library = (contributions library).filterMap fun entry =>
      (announcementOf? entry.2).map (entry.1, ·) := by
  rw [contributions_eq, List.filterMap_map]
  refine (List.filterMap_some.symm.trans (List.filterMap_congr fun entry _ => ?_))
  rw [Function.comp_apply, announcementOf?_complete]
  rfl

/-- A line that announces a function starts a member. -/
theorem startsMember_of_announces {className : Option Text} {line : Line} {name : Text}
    (announces : line.announces? className = some (.function name)) :
    line.startsMember = true := by
  rw [Line.announces?] at announces
  split at announces
  · cases announces
  · split at announces
    · cases announces
    · next starts => simpa using starts

/-- A member starts one brace deep, outside of comments, with a visibility. -/
theorem Line.startsMember_iff {line : Line} :
    line.startsMember = true ↔ line.depth = 1 ∧ line.hidden = false ∧
      (line.text.trim.startsWith "public " = true ∨
        line.text.trim.startsWith "private " = true) := by
  rw [startsMember, Bool.and_eq_true, Bool.and_eq_true, Bool.or_eq_true, beq_iff_eq,
    Bool.not_eq_true', and_assoc]

private theorem hidden_of_announces {className : Option Text} {line : Line} {name : Text}
    (announces : line.announces? className = some (.function name)) : line.hidden = false :=
  (Line.startsMember_iff.mp (startsMember_of_announces announces)).2.1

private theorem complete_eq_of_mem {library : Text} {entry : Nat × Announcement}
    (member : entry ∈ announcements library) :
    entry.2.complete entry.1 ((library.lineTails[entry.1 - 1]?).getD []) =
      entry.2.complete entry.1 ((library.withoutComments.lineTails[entry.1 - 1]?).getD []) := by
  obtain ⟨line, inLibrary, announced⟩ := List.mem_filterMap.mp member
  obtain ⟨what, announces, rfl⟩ := Option.map_eq_some_iff.mp announced
  have listed := exists_getElem?_of_mem inLibrary
  cases what with
  | importLine line => rfl
  | declaration line => rfl
  | function name =>
    rw [getElem?_lineTails_withoutComments listed (hidden_of_announces announces),
      (getElem?_linesOf.mp listed).2.2.2]
    exact (Announcement.complete_withoutComments _ _ _).symm

/-- Comments matter to a catalog by what the lines announce and by nothing else. -/
theorem contributions_eq_iff (library : Text) :
    contributions library = contributions library.withoutComments ↔
      announcements library = announcements library.withoutComments := by
  constructor
  · intro same
    rw [announcements_eq, same, ← announcements_eq]
  · intro same
    rw [contributions_eq, contributions_eq, ← same]
    exact List.map_congr_left fun entry member => congrArg _ (complete_eq_of_mem member)

/-! ### Comments apart from what is announced -/

/-- Whether a line starts like an import or a member. -/
def Line.speaks (line : Line) : Bool :=
  line.text.trim.startsWith Keyword.imports || !line.hidden &&
    (line.text.trim.startsWith "public " || line.text.trim.startsWith "private ")

/-- The comments of a library stand apart from its imports and members: the class has its name
without them, and every line starts outside comments and has none, or starts no import and no
member with or without them. -/
structure CommentsApart (library : Text) : Prop where
  className : className? library = className? library.withoutComments
  lines : ∀ i : Nat,
    (∃ line stripped, (linesOf library)[i]? = some line ∧
      (linesOf library.withoutComments)[i]? = some stripped ∧ line.hidden = false ∧
        line.text = stripped.text) ∨
    (∀ line, (linesOf library)[i]? = some line → line.speaks = false) ∧
      ∀ line, (linesOf library.withoutComments)[i]? = some line → line.speaks = false

private theorem announces?_of_speaks {line : Line} (silent : line.speaks = false)
    (className : Option Text) : line.announces? className = none := by
  rw [Line.speaks, Bool.or_eq_false_iff] at silent
  have noMember : line.startsMember = false := by
    rw [Line.startsMember, Bool.and_assoc, silent.2, Bool.and_false]
  rw [Line.announces?, silent.1, noMember]
  simp

/-- Comments do not change the depth of a line. -/
theorem start_withoutComments {library : Text} {line stripped : Line} {i : Nat}
    (listed : (linesOf library)[i]? = some line)
    (listed' : (linesOf library.withoutComments)[i]? = some stripped) :
    stripped.depth = line.depth ∧ stripped.hidden = false := by
  obtain ⟨-, -, start, -⟩ := getElem?_linesOf.mp listed
  obtain ⟨-, -, start', -⟩ := getElem?_linesOf.mp listed'
  have starts : (0, false) :: lineBeginnings 0 library.withoutComments.pieces =
      ((0, false) :: lineBeginnings 0 library.pieces).map fun start => (start.1, false) := by
    rw [Text.pieces_withoutComments,
      lineBeginnings_flatMap_stripped (Text.scanned_pieces library).wellFormed]
    rfl
  rw [starts, List.getElem?_map, start, Option.map_some] at start'
  obtain ⟨depth, hidden⟩ := Prod.mk.inj (Option.some.inj start')
  exact ⟨depth.symm, hidden.symm⟩

private theorem CommentsApart.announcements_eq {library : Text} (apart : CommentsApart library) :
    announcements library = announcements library.withoutComments := by
  rw [announcements, announcements, apart.className]
  refine filterMap_eq_of_getElem? fun i => ?_
  rcases apart.lines i with ⟨line, stripped, listed, listed', outside, same⟩ | ⟨silent, silent'⟩
  · obtain ⟨depth, hidden⟩ := start_withoutComments listed listed'
    have number : line.number = stripped.number := by
      rw [(getElem?_linesOf.mp listed).1, (getElem?_linesOf.mp listed').1]
    rw [listed, listed', Option.bind_some, Option.bind_some, number]
    have alike : line.announces? (className? library.withoutComments) =
        stripped.announces? (className? library.withoutComments) := by
      simp only [Line.announces?, Line.startsMember, same, depth, hidden, outside]
    rw [alike]
  · have nothing : ∀ {found : Option Line}, (∀ line, found = some line → line.speaks = false) →
        (found.bind fun line => (line.announces? (className? library.withoutComments)).map
          (line.number, ·)) = none := by
      intro found silent
      cases found with
      | none => rfl
      | some line => rw [Option.bind_some, announces?_of_speaks (silent line rfl), Option.map_none]
    rw [nothing silent, nothing silent']

end Mining

open Mining in
/-- Comments matter to the catalog of a library exactly by what its lines announce: if they announce
the same without comments, each line contributes the same, function bodies and failures included,
and conversely, and the catalogs are equal. They do announce the same if the comments stand apart
from the imports and members. -/
theorem Catalog.ofLibrary_withoutComments (library : Text) :
    (contributions library = contributions library.withoutComments ↔
      announcements library = announcements library.withoutComments) ∧
    (announcements library = announcements library.withoutComments →
      Catalog.ofLibrary library = Catalog.ofLibrary library.withoutComments) ∧
    (CommentsApart library →
      announcements library = announcements library.withoutComments) := by
  refine ⟨contributions_eq_iff library, fun same => ?_, CommentsApart.announcements_eq⟩
  rw [ofLibrary_eq, ofLibrary_eq, (contributions_eq_iff library).mpr same]

/-- Remarks before, inside and behind members, and members in remarks, leave the catalog alone. -/
theorem Catalog.ofLibrary_withoutComments_of_remarks :
    let library : Text := "public class L \x7b\n/* public int old;\n*/ // A class\n" ++
      "public void f() \x7b\nn++; // up \x7d\n\x7d\n// public int g;\n\x7d\n"
    (Catalog.ofLibrary library).toOption.map Catalog.names = some [("f" : Text)] ∧
      Catalog.ofLibrary library = Catalog.ofLibrary library.withoutComments :=
  ⟨by decide +kernel, (ofLibrary_withoutComments _).2.1 (by decide +kernel)⟩

/-- A class is named by a remark, and its constructor becomes a function. -/
theorem Catalog.names_ofLibrary_of_remark :
    let library : Text :=
      "// A class of helpers\npublic class L \x7b\n    public L() \x7b\n    \x7d\n\x7d\n"
    (Catalog.ofLibrary library).toOption.map Catalog.names = some [("L" : Text)] ∧
      (Catalog.ofLibrary library.withoutComments).toOption.map Catalog.names = some [] := by
  decide +kernel

end ScriptLoom
